import MiniJava.Proofs.Source.Chars
import MiniJava.Proofs.Source.Positions
/-!
# Places in a text

A place of a text is where one of its characters stands, or its end (`Source.Stands`).  The lines of a source hold no
newlines of their own, so that reading all of it ends just there (`Lined.walk_chars`), and every place is on one of its
lines or on the one after the last.  A span points into the text if it starts at a place and stops further on, no later
than on that line (`Source.PointsInto`).
-/
namespace MiniJava

/-- Closed lines one after another take one line each. -/
theorem Position.walk_lines (n : Nat) (ls : List (List Char)) (h : ∀ l ∈ ls, '\n' ∉ l) :
    Position.walk ⟨n, 1⟩ (ls.flatMap (· ++ ['\n'])) = ⟨n + ls.length, 1⟩ := by
  induction ls generalizing n with
  | nil => rfl
  | cons l ls ih =>
    obtain ⟨hl, hls⟩ := List.forall_mem_cons.1 h
    have hline : Position.walk ⟨n, 1⟩ (l ++ ['\n']) = ⟨n + 1, 1⟩ := by
      rw [walk_newline, line_walk, List.count_eq_zero.2 hl]
    rw [List.flatMap_cons, walk_append, hline, ih (n + 1) hls, List.length_cons]
    exact congrArg (Position.mk · 1) (by omega)

namespace Source

variable {s : Source} {p : Position}

/-- The lines of the source are single lines. -/
def Lined (s : Source) : Prop := ∀ l ∈ s.lines, '\n' ∉ l

theorem lined_ofText (name text : String) : (ofText name text).Lined := newline_notMem_of_mem_linesOf

/-- **Reading all of a source ends at its end.** -/
theorem Lined.walk_chars (hs : s.Lined) : Position.first.walk s.chars = s.eof := by
  unfold chars eof
  rw [Position.first, Position.walk_lines 1 s.lines hs, Nat.add_comm]

/-! ## Places -/

/-- **A character of the text stands at `p`**, or the text ends there. -/
def Stands (s : Source) (p : Position) : Prop := (∃ c, (c, p) ∈ s.glyphs) ∨ p = s.eof

theorem stands_eof (s : Source) : s.Stands s.eof := .inr rfl

/-- Reading a part of the text ends at a place of it. -/
theorem Lined.stands_walk (hs : s.Lined) {before after : List Char} (h : s.chars = before ++ after) :
    s.Stands (Position.first.walk before) := by
  cases after with
  | nil =>
    rw [List.append_nil] at h
    rw [← h, hs.walk_chars]
    exact s.stands_eof
  | cons c after =>
    refine .inl ⟨c, ?_⟩
    rw [glyphs, h, placed_append]
    exact List.mem_append_right _ List.mem_cons_self

/-- **The places of a text are on its lines or just behind them.** -/
theorem Stands.bounds (h : s.Stands p) (hs : s.Lined) : 1 ≤ p.line ∧ 1 ≤ p.column ∧ p ≤ s.eof := by
  obtain ⟨c, hc⟩ | rfl := h
  · obtain ⟨hfirst, hlast⟩ := bounds_of_mem_placed hc
    rw [hs.walk_chars] at hlast
    refine ⟨?_, one_le_column_of_mem_placed (Nat.le_refl 1) hc, le_of_lt hlast⟩
    rw [Position.le_iff] at hfirst
    change 1 < p.line ∨ 1 = p.line ∧ _ at hfirst
    omega
  · exact ⟨Nat.le_add_left 1 _, Nat.le_refl 1, le_refl _⟩

/-! ## Spans -/

/-- **The span points into the text.** -/
structure PointsInto (s : Source) (span : Span) : Prop where
  forward : span.start < span.stop
  one_le_start : 1 ≤ span.start.line
  start_le_stop : span.start.line ≤ span.stop.line
  stop_le : span.stop.line ≤ s.lines.length + 1
  stands : s.Stands span.start

theorem Stands.pointsInto {a b : Position} (ha : s.Stands a) (hs : s.Lined) (hlt : a < b) (hb : b ≤ s.eof) :
    s.PointsInto ⟨a, b⟩ where
  forward := hlt
  one_le_start := (ha.bounds hs).1
  start_le_stop := Position.line_le_of_le (le_of_lt hlt)
  stop_le := Position.line_le_of_le hb
  stands := ha

/-- The span of a single character points into the text also where the text ends. -/
theorem Stands.pointsInto_single (h : s.Stands p) (hs : s.Lined) : s.PointsInto (Span.single p) where
  forward := .inr ⟨rfl, Nat.lt_succ_self _⟩
  one_le_start := (h.bounds hs).1
  start_le_stop := Nat.le_refl _
  stop_le := Position.line_le_of_le (h.bounds hs).2.2
  stands := h

end Source

end MiniJava
