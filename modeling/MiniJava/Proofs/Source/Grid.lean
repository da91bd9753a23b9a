import Mathlib.Data.List.Chain
import Mathlib.Order.Bounds.Basic
import MiniJava.Proofs.Source.Places
/-!
# Characters on lines and columns

The characters of a source are set out on a grid: each line of the text begins in the first column of a line of its own,
and each character gives the next one its position (`Position.Moves`).  A line of the grid holds a line of the text and its
newline (`Lined.onLine_eq`), and no two characters stand in one place (`pairwise_placed`).
-/
namespace MiniJava

/-! ## From one character to the next -/

namespace Position

/-- **Where the next character stands**: behind a newline it begins the next line; a tab moves it to the least column to
the right that is 1 modulo 4; all else moves it by one. -/
inductive Moves : Char → Position → Position → Prop
  | newline {p : Position} : Moves '\n' p ⟨p.line + 1, 1⟩
  | tab {p : Position} {n : Nat} : IsLeast {m | p.column < m ∧ m % 4 = 1} n → Moves '\t' p ⟨p.line, n⟩
  | plain {c : Char} {p : Position} : c ≠ '\n' → c ≠ '\t' → Moves c p ⟨p.line, p.column + 1⟩

/-- Tab stops are the columns that are 1 modulo 4. -/
theorem isLeast_tab {p : Position} (h : 1 ≤ p.column) : IsLeast {m | p.column < m ∧ m % 4 = 1} p.tab.column := by
  have hcolumn : p.tab.column = 1 + ((p.column - 1) / 4 + 1) * 4 := rfl
  rw [hcolumn]
  refine ⟨⟨?_, ?_⟩, fun m ⟨hlt, hstop⟩ => ?_⟩
  · omega
  · omega
  · omega

theorem moves_past {p : Position} (h : 1 ≤ p.column) (c : Char) : Moves c p (p.past c) := by
  unfold past
  split_ifs with hnewline htab
  · subst hnewline
    exact .newline
  · subst htab
    exact .tab (isLeast_tab h)
  · exact .plain hnewline htab

/-- A character takes one line at most, and four columns. -/
theorem past_le {p : Position} (h : 1 ≤ p.column) (c : Char) :
    (p.past c).line ≤ p.line + 1 ∧ (p.past c).column ≤ p.column + 4 := by
  unfold past
  split_ifs
  · refine ⟨Nat.le_refl _, ?_⟩
    show 1 ≤ p.column + 4
    omega
  · have hcolumn : p.tab.column = 1 + ((p.column - 1) / 4 + 1) * 4 := rfl
    refine ⟨Nat.le_succ _, ?_⟩
    rw [hcolumn]
    omega
  · refine ⟨Nat.le_succ _, ?_⟩
    show p.column + 1 ≤ p.column + 4
    omega

end Position

namespace Source

/-! ## The whole grid -/

/-- **Characters stand one after another.** -/
theorem pairwise_placed (p : Position) (cs : List Char) : (placed p cs).Pairwise fun g h => g.2 < h.2 := by
  induction cs generalizing p with
  | nil => exact .nil
  | cons c cs ih =>
    refine .cons (fun h hh => ?_) (ih _)
    exact lt_of_lt_of_le (p.lt_past c) (bounds_of_mem_placed hh).1

theorem isChain_placed {p : Position} (hp : 1 ≤ p.column) (cs : List Char) :
    (placed p cs).IsChain fun g h => Position.Moves g.1 g.2 h.2 := by
  induction cs generalizing p with
  | nil => exact .nil
  | cons c cs ih =>
    have hrest := ih (Position.one_le_column_past hp c)
    cases cs with
    | nil => exact .singleton _
    | cons d cs => exact .cons_cons (Position.moves_past hp c) hrest

/-- No position is further away than a line and four columns for each character. -/
theorem lt_of_mem_placed {p : Position} (hp : 1 ≤ p.column) {cs : List Char} {g : Char × Position} (hg : g ∈ placed p cs) :
    g.2.line < p.line + cs.length ∧ g.2.column < p.column + 4 * cs.length := by
  induction cs generalizing p with
  | nil => cases hg
  | cons c cs ih =>
    rw [List.length_cons]
    rcases List.mem_cons.1 hg with rfl | hg
    · constructor
      · show p.line < p.line + (cs.length + 1)
        omega
      · show p.column < p.column + 4 * (cs.length + 1)
        omega
    · have hnext := ih (Position.one_le_column_past hp c) hg
      have hpast := Position.past_le hp c
      omega

/-! ## Line by line -/

/-- The characters on the `n`-th line of the grid. -/
def onLine (s : Source) (n : Nat) : List (Char × Position) := s.glyphs.filter fun g => g.2.line = n

/-- A closed line stays on its line. -/
theorem line_of_mem_placed {p : Position} (hp : 1 ≤ p.column) {l : List Char} (hl : '\n' ∉ l) {g : Char × Position}
    (hg : g ∈ placed p (l ++ ['\n'])) : g.2.line = p.line := by
  obtain ⟨hle, hlt⟩ := bounds_of_mem_placed hg
  have hcolumn := one_le_column_of_mem_placed hp hg
  rw [Position.walk_newline, Position.line_walk, List.count_eq_zero.2 hl, Position.lt_iff] at hlt
  rw [Position.le_iff] at hle
  dsimp only at hlt
  omega

theorem filter_placed_lines {n i : Nat} {ls : List (List Char)} {l : List Char} (hls : ∀ l ∈ ls, '\n' ∉ l)
    (hl : ls[i]? = some l) :
    (placed ⟨n, 1⟩ (ls.flatMap (· ++ ['\n']))).filter (fun g => g.2.line = n + i) = placed ⟨n + i, 1⟩ (l ++ ['\n']) := by
  induction ls generalizing n i with
  | nil => cases hl
  | cons k ls ih =>
    obtain ⟨hk, hls⟩ := List.forall_mem_cons.1 hls
    have hwalk : Position.walk ⟨n, 1⟩ (k ++ ['\n']) = ⟨n + 1, 1⟩ := by
      have h := Position.walk_lines n [k] (List.forall_mem_singleton.2 hk)
      rwa [List.flatMap_singleton] at h
    have hfirst : ∀ g ∈ placed ⟨n, 1⟩ (k ++ ['\n']), g.2.line = n := fun g hg => line_of_mem_placed (Nat.le_refl 1) hk hg
    have hrest : ∀ g ∈ placed ⟨n + 1, 1⟩ (ls.flatMap (· ++ ['\n'])), n + 1 ≤ g.2.line := fun g hg =>
      Position.line_le_of_le (bounds_of_mem_placed hg).1
    rw [List.flatMap_cons, placed_append, hwalk, List.filter_append]
    cases i with
    | zero =>
      cases hl
      rw [List.filter_eq_self.2 fun g hg => by simpa using hfirst g hg,
        List.filter_eq_nil_iff.2 fun g hg => by simpa using Nat.ne_of_gt (hrest g hg), List.append_nil]
      rfl
    | succ i =>
      have hnone : (placed ⟨n, 1⟩ (k ++ ['\n'])).filter (fun g => g.2.line = n + (i + 1)) = [] :=
        List.filter_eq_nil_iff.2 fun g hg => by
          rw [hfirst g hg, decide_eq_true_eq]
          omega
      have hshift : n + (i + 1) = n + 1 + i := by omega
      rw [hnone, List.nil_append, hshift]
      exact ih hls hl

variable {s : Source}

/-- **A line of the grid is a line of the text, closed.** -/
theorem Lined.onLine_eq (hs : s.Lined) {i : Nat} {l : List Char} (hl : s.lines[i]? = some l) :
    s.onLine (i + 1) = placed ⟨i + 1, 1⟩ (l ++ ['\n']) := by
  have h := filter_placed_lines (n := 1) hs hl
  rw [Nat.add_comm 1 i] at h
  exact h

/-- Each character stands on a line of the text. -/
theorem Lined.line_bounds (hs : s.Lined) {g : Char × Position} (hg : g ∈ s.glyphs) :
    1 ≤ g.2.line ∧ g.2.line ≤ s.lines.length ∧ g.2 < s.eof := by
  obtain ⟨hfirst, hlast⟩ := bounds_of_mem_placed hg
  have hcolumn := one_le_column_of_mem_placed (Nat.le_refl 1) hg
  rw [hs.walk_chars] at hlast
  refine ⟨Position.line_le_of_le hfirst, ?_, hlast⟩
  rw [Position.lt_iff] at hlast
  change g.2.line < s.lines.length + 1 ∨ g.2.line = s.lines.length + 1 ∧ g.2.column < 1 at hlast
  omega

/-- **A text is set out faithfully.**  Whatever the text, the characters of its source are the text with each carriage
return and newline replaced by a newline, closed by a newline if it is not empty.  Those on each line are the line and its
newline, the first of them in column 1, and there are none on other lines.  The positions increase, each follows from the
character before, and the end of the text is behind all of them.  No coordinate is more than four times the number of
characters, so that all fit in 32 bits if the text has fewer than `2 ^ 30`. -/
theorem positions_faithful (name text : String) :
    (ofText name text).glyphs.map Prod.fst = closeLine (dropReturns text.toList) ∧
    (∀ n, 1 ≤ n → n ≤ (ofText name text).lines.length →
      ((ofText name text).onLine n).map Prod.fst = (ofText name text).line n ++ ['\n'] ∧
      ((ofText name text).onLine n).head?.map Prod.snd = some ⟨n, 1⟩) ∧
    (∀ g ∈ (ofText name text).glyphs, 1 ≤ g.2.line ∧ g.2.line ≤ (ofText name text).lines.length ∧
      g.2 < (ofText name text).eof) ∧
    ((ofText name text).glyphs.Pairwise fun g h => g.2 < h.2) ∧
    ((ofText name text).glyphs.IsChain fun g h => Position.Moves g.1 g.2 h.2) ∧
    (∀ g ∈ (ofText name text).glyphs, g.2.line ≤ (ofText name text).glyphs.length ∧
      g.2.column ≤ 4 * (ofText name text).glyphs.length) := by
  have hs := lined_ofText name text
  refine ⟨?_, fun n hfirst hlast => ?_, fun g hg => hs.line_bounds hg, pairwise_placed _ _,
    isChain_placed (Nat.le_refl 1) _, fun g hg => ?_⟩
  · rw [map_fst_glyphs, chars_ofText]
  · obtain ⟨i, rfl⟩ : ∃ i, n = i + 1 := ⟨n - 1, by omega⟩
    have hl := List.getElem?_eq_getElem (show i < (ofText name text).lines.length from hlast)
    have hline : (ofText name text).line (i + 1) = (ofText name text).lines[i] := by
      rw [line, Nat.add_sub_cancel, List.getD_eq_getElem?_getD, hl, Option.getD_some]
    rw [hs.onLine_eq hl, map_fst_placed, hline]
    refine ⟨rfl, ?_⟩
    cases (ofText name text).lines[i] <;> rfl
  · have hlength : (ofText name text).glyphs.length = (ofText name text).chars.length := by
      rw [← map_fst_glyphs, List.length_map]
    have hlt := lt_of_mem_placed (Nat.le_refl 1) hg
    change g.2.line < 1 + _ ∧ g.2.column < 1 + 4 * _ at hlt
    rw [hlength]
    omega

end Source

namespace Sample

/-- Tabs, carriage returns that go and one that stays, and a last line that is open. -/
def ragged : Source := .ofText "<sample>" "a\tb\r\n\r\r\n\tc"

end Sample

/-- How the sample is set out. -/
theorem Source.positions_faithful_on_sample :
    Sample.ragged.glyphs = [('a', ⟨1, 1⟩), ('\t', ⟨1, 2⟩), ('b', ⟨1, 5⟩), ('\n', ⟨1, 6⟩), ('\r', ⟨2, 1⟩), ('\n', ⟨2, 2⟩),
      ('\t', ⟨3, 1⟩), ('c', ⟨3, 5⟩), ('\n', ⟨3, 6⟩)] ∧
    Sample.ragged.lines.length = 3 ∧ (Sample.ragged.onLine 3).map Prod.fst = Sample.ragged.line 3 ++ ['\n'] ∧
    (Sample.ragged.onLine 3).head?.map Prod.snd = some ⟨3, 1⟩ ∧
    (Sample.ragged.glyphs.IsChain fun g h => Position.Moves g.1 g.2 h.2) := by
  obtain ⟨-, hlines, -, -, hmoves, -⟩ := Source.positions_faithful "<sample>" "a\tb\r\n\r\r\n\tc"
  obtain ⟨hline, hfirst⟩ := hlines 3 (by decide) (by decide)
  exact ⟨by decide, by decide, hline, hfirst, hmoves⟩

end MiniJava
