import Mathlib.Data.Nat.Basic
import MiniJava.Source.Report
/-!
# Excerpts

What a report shows of a span: its lines, numbered and behind a gutter, and below them the marks (`Framed`).  Every width
in it is stated as a sum, so that nothing is taken from what is too small: a field for line numbers is as wide as its
last number, which is its longest (`digits_mono`), and columns are counted from 1.
-/
namespace MiniJava.Report

/-! ## Fields -/

theorem toList_blanks (n : Nat) : (blanks n).toList = List.replicate n ' ' := String.toList_ofList

theorem length_blanks (n : Nat) : (blanks n).length = n := by
  rw [← String.length_toList, toList_blanks, List.length_replicate]

theorem bar_notMem_blanks (n : Nat) : '|' ∉ (blanks n).toList := by
  rw [toList_blanks, List.mem_replicate]
  rintro ⟨-, ⟨⟩⟩

/-- **A larger number has no fewer digits.** -/
theorem digits_mono {m n : Nat} (h : m ≤ n) : digits m ≤ digits n := by
  have hpos : 0 < digits n := Nat.length_repr_pos
  have hn : n < 10 ^ digits n := (Nat.length_repr_le_iff hpos).1 (Nat.le_refl _)
  exact (Nat.length_repr_le_iff hpos).2 (Nat.lt_of_le_of_lt h hn)

theorem bar_notMem_number (n : Nat) : '|' ∉ (toString n).toList := by
  intro h
  have hdigit : '|'.isDigit = true := Nat.isDigit_of_mem_toDigits (by decide) (by decide) (Nat.toList_repr ▸ h)
  cases hdigit

/-- **A number that is not too long fills its field**, blanks first. -/
theorem exists_gutter_eq {width n : Nat} (h : digits n ≤ width) :
    ∃ pad, pad + digits n = width ∧ gutter width n = blanks pad ++ toString n :=
  ⟨width - digits n, Nat.sub_add_cancel h, rfl⟩

theorem length_gutter {width n : Nat} (h : digits n ≤ width) : (gutter width n).length = width := by
  obtain ⟨pad, hpad, hgutter⟩ := exists_gutter_eq h
  rw [hgutter, String.length_append, length_blanks]
  exact hpad

theorem bar_notMem_gutter (width n : Nat) : '|' ∉ (gutter width n).toList := by
  rw [gutter, String.toList_append, List.mem_append, not_or]
  exact ⟨bar_notMem_blanks _, bar_notMem_number n⟩

/-! ## Bars -/

/-- **The line has its first bar behind `n` columns.** -/
def BarAt (n : Nat) (line : String) : Prop :=
  ∃ before after, line.toList = before ++ '|' :: after ∧ '|' ∉ before ∧ before.length = n

section

variable {field : String} {n : Nat}

/-- The bar stands behind the field and a blank. -/
theorem barAt_of_eq {line : String} {after : List Char} (hfield : '|' ∉ field.toList) (hlength : field.length = n)
    (hline : line.toList = field.toList ++ ' ' :: '|' :: after) : BarAt (n + 1) line := by
  refine ⟨field.toList ++ [' '], after, ?_, ?_, ?_⟩
  · rw [hline, List.append_assoc]
    rfl
  · rw [List.mem_append, not_or]
    exact ⟨hfield, by decide⟩
  · rw [List.length_append, String.length_toList, hlength]
    rfl

theorem barAt_end (hfield : '|' ∉ field.toList) (hlength : field.length = n) : BarAt (n + 1) (field ++ " |") :=
  barAt_of_eq hfield hlength (String.toList_append ..)

theorem barAt_between (hfield : '|' ∉ field.toList) (hlength : field.length = n) (text : String) :
    BarAt (n + 1) (field ++ " | " ++ text) := by
  have hline : (field ++ " | " ++ text).toList = field.toList ++ ' ' :: '|' :: ' ' :: text.toList := by
    rw [String.append_assoc, String.toList_append, String.toList_append]
    rfl
  exact barAt_of_eq hfield hlength hline

end

/-! ## What is shown of a span -/

def carets (n : Nat) : String := String.ofList (List.replicate n '^')

/-- **The `margin`, the `rows` and the `marks` show the span**: a row for each of its lines and for no other, the text of
the line behind its number, and nothing where the text has no such line; all bars in one column; and below, under the
columns from the span's first to its last, in either order, one caret at least. -/
structure Framed (source : Source) (span : Span) (margin : String) (rows : List String) (marks : String) : Prop where
  length_rows : span.start.line + rows.length = span.stop.line + 1
  row : ∀ i < rows.length, ∃ j pad, j + 1 = span.start.line + i ∧ pad + digits (j + 1) = digits span.stop.line ∧
    rows[i]? = some (blanks pad ++ toString (j + 1) ++ " | " ++ String.ofList ((source.lines[j]?).getD []))
  bars : ∀ line ∈ margin :: rows ++ [marks], BarAt (digits span.stop.line + 1) line
  underlined : ∃ last skip count, last + 1 = max span.stop.column 2 ∧ skip + 1 = min span.start.column last ∧
    skip + count = max span.start.column last ∧ 0 < count ∧
    marks = blanks (digits span.stop.line) ++ " | " ++ blanks skip ++ carets count

variable {source : Source} {span : Span}

theorem length_excerpt (h : span.start.line ≤ span.stop.line) :
    span.start.line + (excerpt source span).length = span.stop.line + 1 := by
  unfold excerpt
  rw [List.length_map, List.length_range']
  omega

/-- **The rows of an excerpt are the lines of the span**, numbered. -/
theorem exists_row_eq (hfirst : 1 ≤ span.start.line) {i : Nat} (hi : i < (excerpt source span).length) :
    ∃ j pad, j + 1 = span.start.line + i ∧ pad + digits (j + 1) = digits span.stop.line ∧
      (excerpt source span)[i]? =
        some (blanks pad ++ toString (j + 1) ++ " | " ++ String.ofList ((source.lines[j]?).getD [])) := by
  unfold excerpt at hi ⊢
  rw [List.length_map, List.length_range'] at hi
  have hj : span.start.line - 1 + i + 1 = span.start.line + i := by omega
  obtain ⟨pad, hpad, hgutter⟩ := exists_gutter_eq (digits_mono (show span.start.line + i ≤ span.stop.line by omega))
  refine ⟨span.start.line - 1 + i, pad, hj, hj ▸ hpad, ?_⟩
  have hline : source.line (span.start.line + i) = (source.lines[span.start.line - 1 + i]?).getD [] := by
    rw [← hj, Source.line, Nat.add_sub_cancel, List.getD_eq_getElem?_getD]
  rw [List.getElem?_map, List.getElem?_range' hi, Nat.one_mul, Option.map_some, hgutter, hline, hj]

theorem barAt_of_mem_excerpt {row : String} (hrow : row ∈ excerpt source span) :
    BarAt (digits span.stop.line + 1) row := by
  obtain ⟨n, hn, rfl⟩ := List.mem_map.1 hrow
  rw [List.mem_range'_1] at hn
  exact barAt_between (bar_notMem_gutter _ n) (length_gutter (digits_mono (by omega))) _

/-- The marks begin at the further left of a span's first and last column and end at the other. -/
theorem exists_underline_eq (hcolumn : 1 ≤ span.start.column) : ∃ last skip count, last + 1 = max span.stop.column 2 ∧
    skip + 1 = min span.start.column last ∧ skip + count = max span.start.column last ∧ 0 < count ∧
    underline span = blanks skip ++ carets count := by
  have hlast : 1 ≤ span.stop.back.column := by
    show 1 ≤ max span.stop.column 2 - 1
    omega
  refine ⟨span.stop.back.column, min span.start.column span.stop.back.column - 1,
    max span.start.column span.stop.back.column - min span.start.column span.stop.back.column + 1, ?_, ?_, ?_,
    Nat.succ_pos _, rfl⟩
  · show max span.stop.column 2 - 1 + 1 = _
    omega
  · omega
  · omega

/-- **An entry frames its span**, if this starts on a line of a text and stops no line above. -/
theorem framed_entry (kind : String) {error : Located String} (hfirst : 1 ≤ error.span.start.line)
    (hcolumn : 1 ≤ error.span.start.column) (hlines : error.span.start.line ≤ error.span.stop.line) :
    ∃ margin rows marks, entry source kind error =
        [kind ++ ": " ++ error.val, " --> " ++ error.span.place source.name, margin] ++ rows ++ [marks, ""] ∧
      Framed source error.span margin rows marks := by
  refine ⟨_, _, _, rfl, length_excerpt hlines, fun i hi => exists_row_eq hfirst hi, ?_, ?_⟩
  · rw [List.forall_mem_append, List.forall_mem_cons, List.forall_mem_singleton]
    refine ⟨⟨?_, fun row hrow => barAt_of_mem_excerpt hrow⟩, ?_⟩
    · exact barAt_end (bar_notMem_blanks _) (length_blanks _)
    · exact barAt_between (bar_notMem_blanks _) (length_blanks _) _
  · obtain ⟨last, skip, count, hlast, hskip, hcount, hpos, hunderline⟩ := exists_underline_eq hcolumn
    refine ⟨last, skip, count, hlast, hskip, hcount, hpos, ?_⟩
    rw [hunderline, ← String.append_assoc]

end MiniJava.Report
