import MiniJava.Log
import MiniJava.Source.Text
import MiniJava.Token.Segment
/-!
# Token streams

The tokens and faults of a source, each with its place in the text.  A fault costs the rest of its line; the stream
goes on with the next one.  A source can be parsed only if its stream has no fault.
-/
namespace MiniJava

/-- A token of the stream, or a fault. -/
abbrev Item := Except (Located LexError) (Located Token)

/-- What a segment that begins at `p` adds to the stream. -/
def Segment.item? (p : Position) : Segment → Option Item
  | blank _ => none
  | token t text => some (.ok ⟨t, p, p.walk text⟩)
  | fault e read _ => some (.error ⟨e, Span.single (p.walk read)⟩)

/-- The stream of consecutive segments, the first of which begins at `p`. -/
def itemsFrom (p : Position) : List Segment → List Item
  | [] => []
  | s :: ss => (s.item? p).toList ++ itemsFrom (p.walk s.text) ss

namespace Source

/-- The stream of a source. -/
def items (s : Source) : List Item := itemsFrom .first (segments s.chars)

/-- The span of the end of the text. -/
def eofSpan (s : Source) : Span := Span.single s.eof

def faults (s : Source) : List (Located LexError) :=
  s.items.filterMap fun item => match item with
    | .ok _ => none
    | .error e => some e

/-- The tokens of a source, or all of its faults if it has any. -/
def tokens (s : Source) : Logged (List (Located LexError)) (List (Located Token)) :=
  if s.faults.isEmpty then do
    let tokens := s.items.filterMap Except.toOption
    Logged.note .debug ("lexed " ++ toString tokens.length ++ " tokens from " ++ s.name)
    return tokens
  else Logged.ofExcept (.error s.faults)

end Source

end MiniJava
