import MiniJava.Source.Position
/-!
# Source texts

A source is a name and the lines of a text.  Its characters are those of its lines, each line closed by a newline, the
last one too; a character's position follows from the characters before it.
-/
namespace MiniJava

/-- The lines of a text.  A line ends at a newline, and a carriage return just before the newline belongs to the line's
end; what follows the last newline is a line only if there is something. -/
def linesOf : List Char → List (List Char)
  | [] => []
  | '\n' :: cs => [] :: linesOf cs
  | '\r' :: '\n' :: cs => [] :: linesOf cs
  | c :: cs =>
    match linesOf cs with
    | [] => [[c]]
    | l :: ls => (c :: l) :: ls

structure Source where
  name : String
  lines : List (List Char)
  deriving DecidableEq, Repr

namespace Source

def ofText (name text : String) : Source := ⟨name, linesOf text.toList⟩

/-- The `n`-th line, empty where the text has none. -/
def line (s : Source) (n : Nat) : List Char := s.lines.getD (n - 1) []

def chars (s : Source) : List Char := s.lines.flatMap (· ++ ['\n'])

/-- The position after the last character. -/
def eof (s : Source) : Position := ⟨s.lines.length + 1, 1⟩

/-- Each of `cs` with its position, the first at `p`. -/
def placed (p : Position) : List Char → List (Char × Position)
  | [] => []
  | c :: cs => (c, p) :: placed (p.past c) cs

/-- The characters of the text with their positions. -/
def glyphs (s : Source) : List (Char × Position) := placed .first s.chars

theorem map_fst_placed (p : Position) (cs : List Char) : (placed p cs).map Prod.fst = cs := by
  induction cs generalizing p with
  | nil => rfl
  | cons c cs ih => simp [placed, ih]

theorem map_fst_glyphs (s : Source) : s.glyphs.map Prod.fst = s.chars := map_fst_placed _ _

end Source

end MiniJava
