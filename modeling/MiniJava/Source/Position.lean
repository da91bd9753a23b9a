/-!
# Positions and spans

A position is a line and a column, both counted from 1.  Reading a character moves a position on: a tab to the next
tab stop, a newline to the start of the next line, anything else by one column.  A span runs from a position up to,
and not including, another.
-/
namespace MiniJava

structure Position where
  line : Nat
  column : Nat
  deriving DecidableEq, Repr

namespace Position

/-- The first position of every text. -/
def first : Position := ⟨1, 1⟩

def advance (p : Position) : Position := ⟨p.line, p.column + 1⟩

/-- Column 1 is the leftmost: stepping back from it stays there. -/
def back (p : Position) : Position := ⟨p.line, max p.column 2 - 1⟩

def newline (p : Position) : Position := ⟨p.line + 1, 1⟩

/-- Tab stops stand four columns apart, the first of them at column 1. -/
def tabWidth : Nat := 4

def tab (p : Position) : Position := ⟨p.line, 1 + ((p.column - 1) / tabWidth + 1) * tabWidth⟩

/-- The position after a character that stands at `p`. -/
def past (p : Position) (c : Char) : Position :=
  if c = '\n' then p.newline else if c = '\t' then p.tab else p.advance

/-- The position after all of `cs`, the first of which stands at `p`. -/
def walk (p : Position) (cs : List Char) : Position := cs.foldl past p

@[simp] theorem walk_nil (p : Position) : p.walk [] = p := rfl

@[simp] theorem walk_cons (p : Position) (c : Char) (cs : List Char) : p.walk (c :: cs) = (p.past c).walk cs := rfl

theorem walk_append (p : Position) (cs ds : List Char) : p.walk (cs ++ ds) = (p.walk cs).walk ds :=
  List.foldl_append

/-- Reading order. -/
protected def lt (p q : Position) : Prop := p.line < q.line ∨ p.line = q.line ∧ p.column < q.column

instance : LT Position := ⟨Position.lt⟩

protected def text (p : Position) : String := toString p.line ++ ":" ++ toString p.column

end Position

/-- The positions from `start` up to, and not including, `stop`. -/
structure Span where
  start : Position
  stop : Position
  deriving DecidableEq, Repr

namespace Span

/-- The span of the single character at `p`. -/
def single (p : Position) : Span := ⟨p, p.advance⟩

/-- From the start of `s` to the end of `t`. -/
def join (s t : Span) : Span := ⟨s.start, t.stop⟩

/-- Where a span lies in the text called `name`: one position if it covers at most one column, else its first and last
columns. -/
def place (name : String) (s : Span) : String :=
  if s.stop = s.start.advance ∨ s.stop = s.start then name ++ ":" ++ s.start.text
  else name ++ ":[" ++ s.start.text ++ "-" ++ s.stop.back.text ++ "]"

end Span

/-- A value and the span of text that it was read from. -/
structure Located (α : Type) where
  val : α
  span : Span
  deriving DecidableEq, Repr

namespace Located

def map {α β : Type} (f : α → β) (x : Located α) : Located β := ⟨f x.val, x.span⟩

@[simp] theorem val_map {α β : Type} (f : α → β) (x : Located α) : (x.map f).val = f x.val := rfl

@[simp] theorem span_map {α β : Type} (f : α → β) (x : Located α) : (x.map f).span = x.span := rfl

end Located

end MiniJava
