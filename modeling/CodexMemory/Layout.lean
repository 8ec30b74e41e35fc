import CodexMemory.Regex
import Mathlib.Data.List.TakeWhile

/-!
# Pieces laid out in a text

A text of which some pieces are taken and the rest is blank: what is left of it when the pieces are
cut further, stripped, or put together again.

* `Laid`: the pieces of a text with their places, nothing but blanks between them;
* `Laid.flatMap`: every piece can be laid out in its turn;
* `Laid.drop_start`, `Laid.pairwise`, `Laid.filter`: the pieces stand where they say, in their order,
  and hold everything that is not blank;
* `Laid.count_of_flush`, `Laid.uncovered`: what the ranges of the stripped pieces cover;
* `Regex.Scanned`: what `finditer` finds, as a relation that follows the text; `Regex.Scanned.laid` is
  the case of pieces.
-/

namespace CodexMemory

variable {α : Type} {blank : α → Bool}

/-! ## Stripping -/

/-- A text without the blanks at its ends. -/
def trim (blank : α → Bool) (s : List α) : List α := ((s.dropWhile blank).reverse.dropWhile blank).reverse

/-- The text begins with something that is not blank. -/
def Flush (blank : α → Bool) (s : List α) : Prop := ∀ a ∈ s.head?, blank a = false

instance (s : List α) : Decidable (Flush blank s) := inferInstanceAs (Decidable (∀ a ∈ s.head?, blank a = false))

theorem flush_dropWhile (s : List α) : Flush blank (s.dropWhile blank) := by
  intro a ha
  have hhead := List.head?_dropWhile_not blank s
  rw [Option.mem_def.mp ha] at hhead
  exact Bool.eq_false_iff.mpr fun h => by simp [h] at hhead

theorem dropWhile_of_flush {s : List α} (h : Flush blank s) : s.dropWhile blank = s := by
  cases s with
  | nil => rfl
  | cons a s => rw [List.dropWhile_cons, h a rfl, if_neg Bool.false_ne_true]

/-- Behind the blanks at its beginning a text is its stripped text and blanks. -/
theorem dropWhile_eq_trim (blank : α → Bool) (s : List α) :
    ∃ after, (∀ a ∈ after, blank a = true) ∧ s.dropWhile blank = trim blank s ++ after := by
  refine ⟨((s.dropWhile blank).reverse.takeWhile blank).reverse, fun a ha => ?_, ?_⟩
  · exact List.mem_takeWhile_imp (List.mem_reverse.mp ha)
  · rw [trim, ← List.reverse_append, List.takeWhile_append_dropWhile, List.reverse_reverse]

/-- **A text is its stripped text between blanks.** -/
theorem eq_trim (blank : α → Bool) (s : List α) :
    ∃ before after, (∀ a ∈ before, blank a = true) ∧ (∀ a ∈ after, blank a = true) ∧
      s = before ++ (trim blank s ++ after) ∧ before.length = s.length - (s.dropWhile blank).length := by
  obtain ⟨after, hafter, hdrop⟩ := dropWhile_eq_trim blank s
  have hsplit := List.takeWhile_append_dropWhile (p := blank) (l := s)
  refine ⟨s.takeWhile blank, after, fun a ha => List.mem_takeWhile_imp ha, hafter, ?_, ?_⟩
  · rw [← hdrop, hsplit]
  · have hlength := congrArg List.length hsplit
    rw [List.length_append] at hlength
    omega

theorem eq_trim_of_flush {s : List α} (h : Flush blank s) :
    ∃ after, (∀ a ∈ after, blank a = true) ∧ s = trim blank s ++ after := by
  obtain ⟨after, hafter, hdrop⟩ := dropWhile_eq_trim blank s
  exact ⟨after, hafter, by rw [← hdrop, dropWhile_of_flush h]⟩

theorem trim_flush (s : List α) : Flush blank (trim blank s) := by
  obtain ⟨after, -, hdrop⟩ := dropWhile_eq_trim blank s
  intro a ha
  refine flush_dropWhile s a ?_
  rw [hdrop, List.head?_append, Option.mem_def.mp ha]
  rfl

theorem trim_reverse_flush (s : List α) : Flush blank (trim blank s).reverse := by
  rw [trim, List.reverse_reverse]
  exact flush_dropWhile _

theorem trim_of_flush {s : List α} (hs : Flush blank s) (hend : Flush blank s.reverse) : trim blank s = s := by
  rw [trim, dropWhile_of_flush hs, dropWhile_of_flush hend, List.reverse_reverse]

@[simp] theorem trim_trim (s : List α) : trim blank (trim blank s) = trim blank s :=
  trim_of_flush (trim_flush s) (trim_reverse_flush s)

theorem filter_blank {s : List α} (h : ∀ a ∈ s, blank a = true) : s.filter (fun a => !blank a) = [] :=
  List.filter_eq_nil_iff.mpr fun a ha => by simp [h a ha]

@[simp] theorem filter_trim (s : List α) :
    (trim blank s).filter (fun a => !blank a) = s.filter (fun a => !blank a) := by
  obtain ⟨before, after, hbefore, hafter, hs, -⟩ := eq_trim blank s
  conv => rhs; rw [hs]
  rw [List.filter_append, List.filter_append, filter_blank hbefore, filter_blank hafter, List.append_nil,
    List.nil_append]

theorem trim_eq_nil {s : List α} : trim blank s = [] ↔ ∀ a ∈ s, blank a = true := by
  constructor
  · intro h a ha
    have hnil : s.filter (fun a => !blank a) = [] := by rw [← filter_trim, h, List.filter_nil]
    simpa using List.filter_eq_nil_iff.mp hnil a ha
  · intro h
    have hall : ∀ t : List α, (∀ a ∈ t, blank a = true) → t.dropWhile blank = [] := fun t ht =>
      List.dropWhile_eq_nil_iff.mpr ht
    rw [trim, hall s h]
    rfl

/-- What is blank around a text is stripped off. -/
theorem trim_between {before s after : List α} (hbefore : ∀ a ∈ before, blank a = true)
    (hafter : ∀ a ∈ after, blank a = true) : trim blank (before ++ (s ++ after)) = trim blank s := by
  rw [trim, List.dropWhile_append_of_pos hbefore, List.dropWhile_append]
  split
  · next hnil =>
    rw [List.isEmpty_iff] at hnil
    rw [List.dropWhile_eq_nil_iff.mpr hafter, trim, hnil]
  · rw [List.reverse_append, List.dropWhile_append_of_pos fun a ha => hafter a (List.mem_reverse.mp ha), trim]

/-- The last that is stripped off stands behind everything that is not blank. -/
theorem trim_getLast {s : List α} (h : trim blank s ≠ []) : blank ((trim blank s).getLast h) = false := by
  refine trim_reverse_flush s _ ?_
  rw [List.head?_reverse, List.getLast?_eq_some_getLast h]
  rfl

/-! ## Pieces -/

/-- The pieces of a text that begins at `pos`, each with its place; between them are blanks only. -/
inductive Laid (blank : α → Bool) : Nat → List α → List (Nat × List α) → Prop
  | nil {pos : Nat} {gap : List α} (hgap : ∀ a ∈ gap, blank a = true) : Laid blank pos gap []
  | cons {pos : Nat} {gap piece rest : List α} {pieces : List (Nat × List α)} (hgap : ∀ a ∈ gap, blank a = true)
      (hpiece : trim blank piece ≠ []) (hrest : Laid blank (pos + gap.length + piece.length) rest pieces) :
      Laid blank pos (gap ++ (piece ++ rest)) ((pos + gap.length, piece) :: pieces)

namespace Laid

/-- A text that is one piece. -/
theorem one {pos : Nat} {piece : List α} (h : trim blank piece ≠ []) : Laid blank pos piece [(pos, piece)] := by
  have hlaid : Laid blank pos ([] ++ (piece ++ [])) [(pos + 0, piece)] :=
    Laid.cons (fun a ha => nomatch ha) h (Laid.nil fun a ha => nomatch ha)
  rwa [List.append_nil, List.nil_append] at hlaid

theorem gap {pos : Nat} {gap s : List α} {pieces : List (Nat × List α)} (hgap : ∀ a ∈ gap, blank a = true)
    (h : Laid blank (pos + gap.length) s pieces) : Laid blank pos (gap ++ s) pieces := by
  cases h with
  | nil hs =>
    refine Laid.nil fun a ha => ?_
    rcases List.mem_append.mp ha with ha | ha
    · exact hgap a ha
    · exact hs a ha
  | @cons _ between piece rest pieces hbetween hpiece hrest =>
    have hall : ∀ a ∈ gap ++ between, blank a = true := fun a ha =>
      (List.mem_append.mp ha).elim (hgap a) (hbetween a)
    have hplace : pos + gap.length + between.length = pos + (gap ++ between).length := by
      rw [List.length_append, Nat.add_assoc]
    rw [hplace] at hrest ⊢
    rw [← List.append_assoc]
    exact Laid.cons hall hpiece hrest

theorem append {pos : Nat} {s t : List α} {pieces others : List (Nat × List α)} (hs : Laid blank pos s pieces)
    (ht : Laid blank (pos + s.length) t others) : Laid blank pos (s ++ t) (pieces ++ others) := by
  induction hs with
  | nil hgap => exact gap hgap ht
  | @cons pos between piece rest pieces hgap hpiece _ ih =>
    have hrest := ih (by rwa [List.length_append, List.length_append, ← Nat.add_assoc, ← Nat.add_assoc] at ht)
    rw [List.append_assoc, List.append_assoc]
    exact Laid.cons hgap hpiece hrest

/-- Pieces of a text that begins elsewhere. -/
theorem shift {pos : Nat} {s : List α} {pieces : List (Nat × List α)} (h : Laid blank pos s pieces) (k : Nat) :
    Laid blank (k + pos) s (pieces.map fun p => (k + p.1, p.2)) := by
  induction h with
  | nil hgap => exact Laid.nil hgap
  | @cons pos between piece rest pieces hgap hpiece _ ih =>
    rw [List.map_cons, ← Nat.add_assoc]
    rw [← Nat.add_assoc, ← Nat.add_assoc] at ih
    exact Laid.cons hgap hpiece ih

/-- A text between blanks. -/
theorem between {pos : Nat} {before s after : List α} {pieces : List (Nat × List α)}
    (hbefore : ∀ a ∈ before, blank a = true) (hafter : ∀ a ∈ after, blank a = true)
    (h : Laid blank (pos + before.length) s pieces) : Laid blank pos (before ++ (s ++ after)) pieces := by
  refine gap hbefore ?_
  have hlaid := append h (Laid.nil hafter)
  rwa [List.append_nil] at hlaid

/-- **Pieces that are laid out in their turn.** -/
theorem flatMap {pos : Nat} {s : List α} {pieces : List (Nat × List α)} (h : Laid blank pos s pieces)
    {cuts : Nat × List α → List (Nat × List α)} (hcuts : ∀ p ∈ pieces, Laid blank p.1 p.2 (cuts p)) :
    Laid blank pos s (pieces.flatMap cuts) := by
  induction h with
  | nil hgap => exact Laid.nil hgap
  | @cons pos between piece rest pieces hgap hpiece _ ih =>
    rw [List.flatMap_cons]
    refine gap hgap (append (hcuts _ List.mem_cons_self) ?_)
    exact ih fun p hp => hcuts p (List.mem_cons_of_mem _ hp)

theorem nonblank {pos : Nat} {s : List α} {pieces : List (Nat × List α)} (h : Laid blank pos s pieces) :
    ∀ p ∈ pieces, trim blank p.2 ≠ [] := by
  induction h with
  | nil => exact fun p hp => nomatch hp
  | cons hgap hpiece _ ih =>
    intro p hp
    rcases List.mem_cons.mp hp with rfl | hp
    · exact hpiece
    · exact ih p hp

/-- **Every piece stands where it says.** -/
theorem drop_start {pos : Nat} {s : List α} {pieces : List (Nat × List α)} (h : Laid blank pos s pieces)
    {text : List α} (htext : text.drop pos = s) : ∀ p ∈ pieces, ∃ rest, text.drop p.1 = p.2 ++ rest := by
  induction h with
  | nil => exact fun p hp => nomatch hp
  | @cons pos between piece rest pieces hgap hpiece _ ih =>
    have hstart : text.drop (pos + between.length) = piece ++ rest := by
      rw [← List.drop_drop, htext, List.drop_left]
    have hstop : text.drop (pos + between.length + piece.length) = rest := by
      rw [← List.drop_drop, hstart, List.drop_left]
    intro p hp
    rcases List.mem_cons.mp hp with rfl | hp
    · exact ⟨rest, hstart⟩
    · exact ih hstop p hp

theorem le_start {pos : Nat} {s : List α} {pieces : List (Nat × List α)} (h : Laid blank pos s pieces) :
    ∀ p ∈ pieces, pos ≤ p.1 := by
  induction h with
  | nil => exact fun p hp => nomatch hp
  | cons hgap hpiece _ ih =>
    intro p hp
    rcases List.mem_cons.mp hp with rfl | hp
    · exact Nat.le_add_right _ _
    · have := ih p hp
      omega

/-- **The pieces follow each other.** -/
theorem pairwise {pos : Nat} {s : List α} {pieces : List (Nat × List α)} (h : Laid blank pos s pieces) :
    pieces.Pairwise fun p q => p.1 + p.2.length ≤ q.1 := by
  induction h with
  | nil => exact List.Pairwise.nil
  | cons hgap hpiece hrest ih => exact List.Pairwise.cons (fun q hq => hrest.le_start q hq) ih

/-- **The pieces hold everything that is not blank.** -/
theorem filter {pos : Nat} {s : List α} {pieces : List (Nat × List α)} (h : Laid blank pos s pieces) :
    (pieces.flatMap Prod.snd).filter (fun a => !blank a) = s.filter (fun a => !blank a) := by
  induction h with
  | nil hgap => rw [List.flatMap_nil, List.filter_nil, filter_blank hgap]
  | cons hgap hpiece _ ih =>
    rw [List.flatMap_cons, List.filter_append, List.filter_append, List.filter_append, ih, filter_blank hgap,
      List.nil_append]

end Laid

/-! ## Ranges -/

/-- A place is in the range that the stripped piece takes up from its beginning. -/
def covers (blank : α → Bool) (place : Nat) (p : Nat × List α) : Bool :=
  decide (p.1 ≤ place) && decide (place < p.1 + (trim blank p.2).length)

theorem covers_iff {place : Nat} {p : Nat × List α} :
    covers blank place p = true ↔ p.1 ≤ place ∧ place < p.1 + (trim blank p.2).length := by
  rw [covers, Bool.and_eq_true, decide_eq_true_iff, decide_eq_true_iff]

theorem trim_length_le (s : List α) : (trim blank s).length ≤ s.length := by
  obtain ⟨before, after, -, -, hs, -⟩ := eq_trim blank s
  have hlength := congrArg List.length hs
  rw [List.length_append, List.length_append] at hlength
  omega

/-- **A piece is read back at its place exactly when it does not begin with a blank.** -/
theorem take_trim_iff {piece : List α} (h : trim blank piece ≠ []) (rest : List α) :
    (piece ++ rest).take (trim blank piece).length = trim blank piece ↔ Flush blank piece := by
  constructor
  · intro htake a ha
    refine trim_flush piece a ?_
    have hpos : (trim blank piece).length ≠ 0 := fun h0 => h (List.length_eq_zero_iff.mp h0)
    rw [← htake, List.head?_take, if_neg hpos, List.head?_append, Option.mem_def.mp ha]
    rfl
  · intro hflush
    obtain ⟨after, -, hpiece⟩ := eq_trim_of_flush hflush
    have htext : piece ++ rest = trim blank piece ++ (after ++ rest) := by
      rw [← List.append_assoc, ← hpiece]
    rw [htext, List.take_left]

namespace Laid

/-- A place before a text is in no range of its pieces. -/
theorem not_covers {pos : Nat} {s : List α} {pieces : List (Nat × List α)} (h : Laid blank pos s pieces)
    {place : Nat} (hplace : place < pos) : ∀ p ∈ pieces, ¬ covers blank place p = true := by
  intro p hp hcovers
  have hstart := h.le_start p hp
  have hrange := (covers_iff.mp hcovers).1
  omega

/-- **Where no piece begins with a blank, what is not blank is in the range of exactly one.** -/
theorem count_of_flush {pos : Nat} {s : List α} {pieces : List (Nat × List α)} (h : Laid blank pos s pieces)
    (hflush : ∀ p ∈ pieces, Flush blank p.2) {i : Nat} {a : α} (ha : s[i]? = some a) (hblank : blank a = false) :
    pieces.countP (covers blank (pos + i)) = 1 := by
  induction h generalizing i with
  | nil hgap =>
    have hmem := hgap a (List.mem_of_getElem? ha)
    rw [hblank] at hmem
    cases hmem
  | @cons pos between piece rest pieces hgap hpiece hrest ih =>
    have hi : between.length ≤ i := by
      by_contra hlt
      rw [List.getElem?_append_left (by omega)] at ha
      have hmem := hgap a (List.mem_of_getElem? ha)
      rw [hblank] at hmem
      cases hmem
    rw [List.getElem?_append_right hi] at ha
    obtain ⟨after, hafter, htrim⟩ := eq_trim_of_flush (hflush _ List.mem_cons_self)
    have hlength := congrArg List.length htrim
    rw [List.length_append] at hlength
    simp only at htrim hlength
    by_cases hin : i - between.length < piece.length
    · -- it is in the first piece, before the blanks at its end
      rw [List.getElem?_append_left hin] at ha
      have hcore : i - between.length < (trim blank piece).length := by
        by_contra hge
        rw [htrim, List.getElem?_append_right (by omega)] at ha
        have hmem := hafter a (List.mem_of_getElem? ha)
        rw [hblank] at hmem
        cases hmem
      have hfirst : covers blank (pos + i) (pos + between.length, piece) = true := by
        rw [covers_iff]
        constructor
        · omega
        · show pos + i < pos + between.length + (trim blank piece).length
          omega
      have hothers : pieces.countP (covers blank (pos + i)) = 0 :=
        List.countP_eq_zero.mpr fun p hp => hrest.not_covers (by omega) p hp
      rw [List.countP_cons_of_pos hfirst, hothers]
    · -- it is behind the first piece
      have hfirst : ¬ covers blank (pos + i) (pos + between.length, piece) = true := by
        intro hcovers
        have hstop : pos + i < pos + between.length + (trim blank piece).length := (covers_iff.mp hcovers).2
        omega
      rw [List.countP_cons_of_neg hfirst]
      rw [List.getElem?_append_right (by omega)] at ha
      have hcount := ih (fun p hp => hflush p (List.mem_cons_of_mem _ hp)) ha
      have hplace : pos + between.length + piece.length + (i - between.length - piece.length) = pos + i := by omega
      rwa [hplace] at hcount

/-- **Where a piece begins with a blank, its last character is in no range.** -/
theorem uncovered {pos : Nat} {s : List α} {pieces : List (Nat × List α)} (h : Laid blank pos s pieces)
    {p : Nat × List α} (hp : p ∈ pieces) (hflush : ¬ Flush blank p.2) :
    ∃ i a, s[i]? = some a ∧ blank a = false ∧ pieces.countP (covers blank (pos + i)) = 0 := by
  induction h with
  | nil => cases hp
  | @cons pos between piece rest pieces hgap hpiece hrest ih =>
    obtain ⟨before, after, hbefore, -, hsplit, -⟩ := eq_trim blank piece
    have hlength := congrArg List.length hsplit
    rw [List.length_append, List.length_append] at hlength
    have hcore : 0 < (trim blank piece).length := List.length_pos_iff.mpr hpiece
    rcases List.mem_cons.mp hp with rfl | hp
    · have hshift : 0 < before.length := by
        refine List.length_pos_iff.mpr fun hnil => hflush ?_
        rw [hnil, List.nil_append] at hsplit
        intro a ha
        refine trim_flush piece a ?_
        simp only at ha
        rw [hsplit, List.head?_append_of_ne_nil _ hpiece] at ha
        exact ha
      refine ⟨between.length + (before.length + ((trim blank piece).length - 1)), (trim blank piece).getLast hpiece, ?_,
        trim_getLast hpiece, ?_⟩
      · have hin : piece[before.length + ((trim blank piece).length - 1)]? =
            (trim blank piece)[(trim blank piece).length - 1]? := by
          generalize trim blank piece = core at hsplit hcore ⊢
          rw [hsplit, List.getElem?_append_right (by omega), List.getElem?_append_left (by omega),
            Nat.add_sub_cancel_left]
        rw [List.getElem?_append_right (by omega), List.getElem?_append_left (by omega), Nat.add_sub_cancel_left, hin,
          ← List.getLast?_eq_getElem?, List.getLast?_eq_some_getLast hpiece]
      · refine List.countP_eq_zero.mpr fun q hq hcovers => ?_
        rcases List.mem_cons.mp hq with rfl | hq
        · have hstop := (covers_iff.mp hcovers).2
          simp only at hstop
          omega
        · exact hrest.not_covers (by omega) q hq hcovers
    · obtain ⟨i, a, ha, hblank, hcount⟩ := ih hp
      refine ⟨between.length + (piece.length + i), a, ?_, hblank, ?_⟩
      · rw [List.getElem?_append_right (by omega), List.getElem?_append_right (by omega)]
        rw [← ha]
        congr 1
        omega
      · have hplace : pos + (between.length + (piece.length + i)) = pos + between.length + piece.length + i := by omega
        have hfirst : ¬ covers blank (pos + between.length + piece.length + i) (pos + between.length, piece) = true := by
          intro hcovers
          have hstop := (covers_iff.mp hcovers).2
          simp only at hstop
          omega
        rw [hplace, List.countP_cons_of_neg hfirst, hcount]

end Laid

/-! ## Scans -/

namespace Regex

/-- A match takes up something, and nothing behind the text. -/
def Proper (first : Option Char → List Char → Option (α × Nat)) : Prop :=
  ∀ prev s m, first prev s = some m → 0 < m.2 ∧ m.2 ≤ s.length

/-- What `finditer` finds in a text that begins at a position: no match begins in `before`, and the
scan goes on after the match. -/
inductive Scanned (first : Option Char → List Char → Option (α × Nat)) :
    Option Char → Nat → List Char → List (Nat × α) → Prop
  | nil {prev : Option Char} {pos : Nat} {s : List Char}
      (hnone : ∀ before c after, s = before ++ c :: after → first (lastOr prev before) (c :: after) = none) :
      Scanned first prev pos s []
  | cons {prev : Option Char} {pos : Nat} {before found rest : List Char} {a : α} {others : List (Nat × α)}
      (hnone : ∀ t c after, before = t ++ c :: after →
        first (lastOr prev t) (c :: (after ++ (found ++ rest))) = none)
      (hfirst : first (lastOr prev before) (found ++ rest) = some (a, found.length)) (hfound : found ≠ [])
      (hrest : Scanned first (lastOr prev (before ++ found)) (pos + before.length + found.length) rest others) :
      Scanned first prev pos (before ++ (found ++ rest)) ((pos + before.length, a) :: others)

theorem finditer_skip (first : Option Char → List Char → Option (α × Nat)) (prev : Option Char) (pos : Nat)
    (t s : List Char) : finditer first prev pos t.length (t ++ s) = finditer first (lastOr prev t) (pos + t.length) 0 s := by
  induction t generalizing prev pos with
  | nil => rfl
  | cons c t ih =>
    rw [List.length_cons, List.cons_append, finditer, ih, lastOr_cons]
    congr 1
    omega

/-- **The scan follows the text.** -/
theorem finditer_scanned {first : Option Char → List Char → Option (α × Nat)} (hfirst : Proper first)
    (prev : Option Char) (pos : Nat) (s : List Char) : Scanned first prev pos s (finditer first prev pos 0 s) := by
  induction hn : s.length using Nat.strongRecOn generalizing prev pos s with
  | ind n ih =>
    subst hn
    cases s with
    | nil =>
      rw [finditer]
      refine Scanned.nil fun before c after h => ?_
      cases before with
      | nil => cases h
      | cons d before => cases h
    | cons c s =>
      cases hm : first prev (c :: s) with
      | none =>
        rw [finditer, hm]
        have hscan := ih s.length (by simp) (some c) (pos + 1) s rfl
        generalize finditer first (some c) (pos + 1) 0 s = found at hscan ⊢
        cases hscan with
        | nil hnone =>
          refine Scanned.nil fun before d after h => ?_
          cases before with
          | nil =>
            obtain ⟨rfl, rfl⟩ := List.cons.inj h
            exact hm
          | cons e before =>
            obtain ⟨rfl, hs⟩ := List.cons.inj h
            rw [lastOr_cons]
            exact hnone before d after hs
        | @cons _ _ before found rest a others hnone hmatch hfound hrest =>
          have hplace : pos + 1 + before.length = pos + (c :: before).length := by
            rw [List.length_cons]
            omega
          rw [hplace] at hrest ⊢
          rw [← List.cons_append]
          refine Scanned.cons (fun t d after h => ?_) ?_ hfound ?_
          · cases t with
            | nil =>
              obtain ⟨rfl, rfl⟩ := List.cons.inj h
              exact hm
            | cons e t =>
              obtain ⟨rfl, hs⟩ := List.cons.inj h
              rw [lastOr_cons]
              exact hnone t d after hs
          · rw [lastOr_cons]
            exact hmatch
          · rw [List.cons_append, lastOr_cons]
            exact hrest
      | some m =>
        obtain ⟨a, n⟩ := m
        obtain ⟨hpos, hle⟩ := hfirst _ _ _ hm
        obtain ⟨n, rfl⟩ : ∃ k, n = k + 1 := ⟨n - 1, by simp only at hpos; omega⟩
        have hlength : (s.take n).length = n := by
          rw [List.length_take]
          simp only [List.length_cons] at hle
          omega
        rw [finditer, hm]
        simp only [Nat.add_sub_cancel]
        have hskip := finditer_skip first (some c) (pos + 1) (s.take n) (s.drop n)
        rw [hlength, List.take_append_drop] at hskip
        rw [hskip]
        have hshorter : (s.drop n).length < (c :: s).length := by
          rw [List.length_drop, List.length_cons]
          omega
        have hscan := ih _ hshorter (lastOr (some c) (s.take n)) (pos + 1 + n) (s.drop n) rfl
        have htext : [] ++ (c :: s.take n ++ s.drop n) = c :: s := by
          rw [List.nil_append, List.cons_append, List.take_append_drop]
        have hfound : (c :: s.take n).length = n + 1 := by rw [List.length_cons, hlength]
        rw [← htext]
        refine Scanned.cons (fun t d after h => ?_) ?_ (List.cons_ne_nil _ _) ?_
        · cases t with
          | nil => cases h
          | cons e t => cases h
        · rw [lastOr_nil, hfound, List.cons_append, List.take_append_drop]
          exact hm
        · rw [List.nil_append, lastOr_cons, hfound, List.length_nil, Nat.add_zero]
          rwa [show pos + 1 + n = pos + (n + 1) by omega] at hscan ⊢

/-- What is found was found somewhere. -/
theorem Scanned.exists_first {first : Option Char → List Char → Option (α × Nat)} {prev : Option Char} {pos : Nat}
    {s : List Char} {found : List (Nat × α)} (h : Scanned first prev pos s found) :
    ∀ x ∈ found, ∃ prev t n, first prev t = some (x.2, n) := by
  induction h with
  | nil => exact fun x hx => nomatch hx
  | cons _ hfirst _ _ ih =>
    intro x hx
    rcases List.mem_cons.mp hx with rfl | hx
    · exact ⟨_, _, _, hfirst⟩
    · exact ih x hx

/-- It begins within the text. -/
theorem Scanned.bounds {first : Option Char → List Char → Option (α × Nat)} {prev : Option Char} {pos : Nat}
    {s : List Char} {found : List (Nat × α)} (h : Scanned first prev pos s found) :
    ∀ x ∈ found, pos ≤ x.1 ∧ x.1 < pos + s.length := by
  induction h with
  | nil => exact fun x hx => nomatch hx
  | @cons prev pos before match' rest a others _ _ hfound _ ih =>
    have hlength := List.length_pos_iff.mpr hfound
    intro x hx
    rw [List.length_append, List.length_append]
    rcases List.mem_cons.mp hx with rfl | hx
    · simp only
      omega
    · have hbounds := ih x hx
      omega

/-- It is in the order of the text. -/
theorem Scanned.sorted {first : Option Char → List Char → Option (α × Nat)} {prev : Option Char} {pos : Nat}
    {s : List Char} {found : List (Nat × α)} (h : Scanned first prev pos s found) :
    found.Pairwise fun x y => x.1 < y.1 := by
  induction h with
  | nil => exact List.Pairwise.nil
  | @cons prev pos before match' rest a others _ _ hfound hrest ih =>
    have hlength := List.length_pos_iff.mpr hfound
    refine List.Pairwise.cons (fun y hy => ?_) ih
    have hbounds := hrest.bounds y hy
    simp only
    omega

/-- **What is found of a text without blanks at its beginning is laid out in it.** -/
theorem Scanned.laid {blank : Char → Bool} {first : Option Char → List Char → Option (List Char × Nat)}
    (hsome : ∀ prev s m, first prev s = some m → trim blank m.1 ≠ [] ∧ m.1 = s.take m.2)
    (hnone : ∀ prev c s, first prev (c :: s) = none → blank c = true) {prev : Option Char} {pos : Nat}
    {s : List Char} {found : List (Nat × List Char)} (h : Scanned first prev pos s found) : Laid blank pos s found := by
  induction h with
  | nil hgap =>
    refine Laid.nil fun c hc => ?_
    obtain ⟨before, after, rfl⟩ := List.append_of_mem hc
    exact hnone _ _ _ (hgap before c after rfl)
  | @cons prev pos before found rest a others hgap hfirst _ _ ih =>
    obtain ⟨htrim, ha⟩ := hsome _ _ _ hfirst
    rw [List.take_left] at ha
    simp only at htrim ha
    subst ha
    refine Laid.cons (fun c hc => ?_) htrim ih
    obtain ⟨t, after, rfl⟩ := List.append_of_mem hc
    exact hnone _ _ _ (hgap t c after rfl)

end Regex

end CodexMemory
