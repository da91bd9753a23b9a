import MiniJava.Source.Text
/-!
# Reports

A report shows each error with the lines that it spans and underlines the columns where it starts and ends.  The line
numbers stand in a gutter as wide as the number of the error's last line.
-/
namespace MiniJava

/-- Errors of one kind, each with the text that describes it. -/
structure Report where
  kind : String
  errors : List (Located String)
  deriving DecidableEq, Repr

namespace Report

/-- The report on `errors`, described by `message`. -/
def of {ε : Type} (kind : String) (message : ε → String) (errors : List (Located ε)) : Report :=
  ⟨kind, errors.map (·.map message)⟩

/-- What errors are called where nobody says what kind they are. -/
def plainKind : String := "error"

def blanks (n : Nat) : String := String.ofList (List.replicate n ' ')

/-- The decimal digits of a line number. -/
def digits (n : Nat) : Nat := (toString n).length

/-- `n` at the right end of a field of `width` columns. -/
def gutter (width n : Nat) : String := blanks (width - digits n) ++ toString n

/-- The lines of the text from the first to the last that a span touches, numbered. -/
def excerpt (source : Source) (span : Span) : List String :=
  (List.range' span.start.line (span.stop.line + 1 - span.start.line)).map fun n =>
    gutter (digits span.stop.line) n ++ " | " ++ String.ofList (source.line n)

/-- Marks the columns between a span's first column and its last, whichever of the two is further left. -/
def underline (span : Span) : String :=
  let first := span.start.column
  let last := span.stop.back.column
  blanks (min first last - 1) ++ String.ofList (List.replicate (max first last - min first last + 1) '^')

def entry (source : Source) (kind : String) (error : Located String) : List String :=
  let margin := blanks (digits error.span.stop.line)
  [kind ++ ": " ++ error.val, " --> " ++ error.span.place source.name, margin ++ " |"]
    ++ excerpt source error.span ++ [margin ++ " | " ++ underline error.span, ""]

def summary (count : Nat) : String :=
  "Build failed with " ++ toString count ++ if count = 1 then " error" else " errors"

def lines (source : Source) (report : Report) : List String :=
  if report.errors.isEmpty then ["No errors were reported"]
  else report.errors.flatMap (entry source report.kind) ++ [summary report.errors.length]

protected def text (source : Source) (report : Report) : String :=
  String.join ((report.lines source).map (· ++ "\n"))

end Report

end MiniJava
