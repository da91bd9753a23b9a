import Mathlib.Order.Defs.LinearOrder
import MiniJava.Source.Text
/-!
# Positions in order

Positions are ordered as a text is read: every character moves the position on (`lt_past`), so the characters of a text
stand at or after its first position and before the position behind it (`bounds_of_mem_placed`).  Hence the characters
that a span covers are those between its ends and no others (`filter_covers`).
-/
namespace MiniJava

namespace Position

instance : LE Position := ⟨fun p q => p.line < q.line ∨ p.line = q.line ∧ p.column ≤ q.column⟩

theorem le_iff {p q : Position} : p ≤ q ↔ p.line < q.line ∨ p.line = q.line ∧ p.column ≤ q.column := Iff.rfl

theorem lt_iff {p q : Position} : p < q ↔ p.line < q.line ∨ p.line = q.line ∧ p.column < q.column := Iff.rfl

theorem line_le_of_le {p q : Position} (h : p ≤ q) : p.line ≤ q.line := by
  rw [le_iff] at h
  omega

/-- Reading order, as a linear order. -/
instance : LinearOrder Position where
  le_refl p := .inr ⟨rfl, Nat.le_refl _⟩
  le_trans p q r hpq hqr := by
    rw [le_iff] at *
    omega
  lt_iff_le_not_ge p q := by
    rw [lt_iff, le_iff, le_iff]
    omega
  le_antisymm p q hpq hqp := by
    rw [le_iff] at hpq hqp
    have hline : p.line = q.line := by omega
    have hcolumn : p.column = q.column := by omega
    cases p
    cases q
    rw [mk.injEq]
    exact ⟨hline, hcolumn⟩
  le_total p q := by
    rw [le_iff, le_iff]
    omega
  toDecidableLE := fun _ _ => inferInstanceAs (Decidable (_ ∨ _ ∧ _))
  toDecidableEq := inferInstance

/-- **Every character moves the position on.** -/
theorem lt_past (p : Position) (c : Char) : p < p.past c := by
  rw [lt_iff, past]
  split_ifs
  · exact .inl (Nat.lt_succ_self _)
  · refine .inr ⟨rfl, ?_⟩
    show p.column < 1 + ((p.column - 1) / 4 + 1) * 4
    omega
  · exact .inr ⟨rfl, Nat.lt_succ_self _⟩

theorem le_walk (p : Position) (cs : List Char) : p ≤ p.walk cs := by
  induction cs generalizing p with
  | nil => exact le_refl p
  | cons c cs ih => exact le_trans (le_of_lt (p.lt_past c)) (ih _)

theorem lt_walk (p : Position) {cs : List Char} (h : cs ≠ []) : p < p.walk cs := by
  cases cs with
  | nil => exact absurd rfl h
  | cons c cs => exact lt_of_lt_of_le (p.lt_past c) (le_walk _ cs)

theorem line_walk (p : Position) (cs : List Char) : (p.walk cs).line = p.line + cs.count '\n' := by
  induction cs generalizing p with
  | nil => rfl
  | cons c cs ih =>
    rw [walk_cons, ih, past]
    split_ifs with hc htab
    · rw [hc, List.count_cons_self]
      show p.line + 1 + _ = _
      omega
    · rw [List.count_cons_of_ne hc]
      rfl
    · rw [List.count_cons_of_ne hc]
      rfl

theorem walk_newline (p : Position) (cs : List Char) : p.walk (cs ++ ['\n']) = ⟨(p.walk cs).line + 1, 1⟩ := by
  rw [walk_append]
  rfl

/-- No character stands left of column 1. -/
theorem one_le_column_past {p : Position} (h : 1 ≤ p.column) (c : Char) : 1 ≤ (p.past c).column := by
  rw [past]
  split_ifs
  · exact Nat.le_refl 1
  · exact Nat.le_add_right 1 _
  · exact Nat.le_succ_of_le h

/-- A character that is neither a tab nor a newline is one column wide. -/
theorem past_of_plain {p : Position} {c : Char} (hnewline : c ≠ '\n') (htab : c ≠ '\t') : p.past c = p.advance := by
  rw [past, if_neg hnewline, if_neg htab]

end Position

namespace Source

/-! ## The characters of a text with their positions -/

theorem placed_append (p : Position) (cs ds : List Char) : placed p (cs ++ ds) = placed p cs ++ placed (p.walk cs) ds := by
  induction cs generalizing p with
  | nil => rfl
  | cons c cs ih => exact congrArg ((c, p) :: ·) (ih _)

/-- **The characters of a text stand between its ends.** -/
theorem bounds_of_mem_placed {p : Position} {cs : List Char} {g : Char × Position} (hg : g ∈ placed p cs) :
    p ≤ g.2 ∧ g.2 < p.walk cs := by
  induction cs generalizing p with
  | nil => cases hg
  | cons c cs ih =>
    rcases List.mem_cons.1 hg with rfl | hg
    · exact ⟨le_refl p, lt_of_lt_of_le (p.lt_past c) (Position.le_walk _ cs)⟩
    · obtain ⟨hle, hlt⟩ := ih hg
      exact ⟨le_trans (le_of_lt (p.lt_past c)) hle, hlt⟩

theorem one_le_column_of_mem_placed {p : Position} (hp : 1 ≤ p.column) {cs : List Char} {g : Char × Position}
    (hg : g ∈ placed p cs) : 1 ≤ g.2.column := by
  induction cs generalizing p with
  | nil => cases hg
  | cons c cs ih =>
    rcases List.mem_cons.1 hg with rfl | hg
    · exact hp
    · exact ih (Position.one_le_column_past hp c) hg

/-- `cs` side by side on one line, one column each, from `p` on. -/
def row (p : Position) (cs : List Char) : List (Char × Position) := cs.mapIdx fun i c => (c, ⟨p.line, p.column + i⟩)

/-- **Text without tabs and newlines stands in a row**, and the position behind it is as many columns further. -/
theorem placed_eq_row {p : Position} {cs : List Char} (h : ∀ c ∈ cs, c ≠ '\n' ∧ c ≠ '\t') :
    placed p cs = row p cs ∧ p.walk cs = ⟨p.line, p.column + cs.length⟩ := by
  induction cs generalizing p with
  | nil => exact ⟨rfl, rfl⟩
  | cons c cs ih =>
    obtain ⟨⟨hnewline, htab⟩, hcs⟩ := List.forall_mem_cons.1 h
    obtain ⟨hplaced, hwalk⟩ := ih (p := p.advance) hcs
    have hcolumn : ∀ i, p.column + 1 + i = p.column + (i + 1) := fun i => by omega
    rw [placed, Position.walk_cons, Position.past_of_plain hnewline htab, hplaced, hwalk]
    simp only [row, Position.advance, List.mapIdx_cons, List.length_cons, hcolumn, Nat.add_zero, and_self]

end Source

/-! ## What a span covers -/

/-- The positions of a span: from its start up to, and not including, its stop. -/
def Span.Covers (s : Span) (p : Position) : Prop := s.start ≤ p ∧ p < s.stop

instance (s : Span) (p : Position) : Decidable (s.Covers p) := inferInstanceAs (Decidable (_ ∧ _))

namespace Source

/-- The characters of a source that a span covers. -/
def under (s : Source) (span : Span) : List (Char × Position) := s.glyphs.filter fun g => span.Covers g.2

theorem covers_of_mem_placed {p : Position} {cs : List Char} {g : Char × Position} (hg : g ∈ placed p cs) :
    Span.Covers ⟨p, p.walk cs⟩ g.2 := bounds_of_mem_placed hg

theorem not_covers_of_mem_before {p : Position} {cs : List Char} {g : Char × Position} (hg : g ∈ placed p cs) {span : Span}
    (h : p.walk cs ≤ span.start) : ¬ span.Covers g.2 :=
  fun hcovers => not_lt_of_ge hcovers.1 (lt_of_lt_of_le (bounds_of_mem_placed hg).2 h)

theorem not_covers_of_mem_after {p : Position} {cs : List Char} {g : Char × Position} (hg : g ∈ placed p cs) {span : Span}
    (h : span.stop ≤ p) : ¬ span.Covers g.2 :=
  fun hcovers => not_lt_of_ge (le_trans h (bounds_of_mem_placed hg).1) hcovers.2

/-- **A span from the start of a stretch of text to its end covers just this stretch.** -/
theorem filter_covers (p : Position) (before cs after : List Char) :
    (placed p (before ++ cs ++ after)).filter (fun g => Span.Covers ⟨p.walk before, (p.walk before).walk cs⟩ g.2) =
      placed (p.walk before) cs := by
  rw [placed_append, placed_append, Position.walk_append, List.filter_append, List.filter_append]
  have hbefore : (placed p before).filter
      (fun g => Span.Covers ⟨p.walk before, (p.walk before).walk cs⟩ g.2) = [] :=
    List.filter_eq_nil_iff.2 fun g hg => by simpa using not_covers_of_mem_before hg (le_refl (p.walk before))
  have hcs : (placed (p.walk before) cs).filter
      (fun g => Span.Covers ⟨p.walk before, (p.walk before).walk cs⟩ g.2) = placed (p.walk before) cs :=
    List.filter_eq_self.2 fun g hg => by simpa using covers_of_mem_placed hg
  have hafter : (placed ((p.walk before).walk cs) after).filter
      (fun g => Span.Covers ⟨p.walk before, (p.walk before).walk cs⟩ g.2) = [] :=
    List.filter_eq_nil_iff.2 fun g hg => by
      simpa using not_covers_of_mem_after hg (le_refl ((p.walk before).walk cs))
  rw [hbefore, hcs, hafter, List.nil_append, List.append_nil]

end Source

end MiniJava
