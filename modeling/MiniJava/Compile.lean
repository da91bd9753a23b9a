import MiniJava.Assembly.Lower
import MiniJava.CUnit.Lower
import MiniJava.Source.Report
import MiniJava.Token.Stream
import MiniJava.Tree.Rules
import MiniJava.Typing
/-!
# Compilation

From a source to its program tree, its elaboration and its code.  The first phase that fails ends the compilation; only
the first phase, that of the tokens, reports more than one error.
-/
namespace MiniJava

inductive Failure where
  | lexical (errors : List (Located LexError))
  | grammatical (error : Located SyntaxError)
  | semantic (error : Located SemanticError)
  | internal (fault : Fault)
  deriving Repr

namespace Failure

/-- The report on a failure that is the text's.  A fault is not. -/
def report? : Failure → Option Report
  | lexical errors => some (.of "Lexical error" LexError.message errors)
  | grammatical error => some (.of "Syntax error" SyntaxError.message [error])
  | semantic error => some (.of "Semantic error" SemanticError.message [error])
  | internal _ => none

end Failure

namespace Source

/-- The program that a source spells. -/
def program (s : Source) : Logged Failure Program := do
  let tokens ← s.tokens.mapError .lexical
  Logged.ofExcept ((Program.parse s.eofSpan tokens).mapError .grammatical)

/-- The program that a source spells, checked and marked. -/
def elaborated (s : Source) (dump : Dump) : Logged Failure Elaborated := do
  let program ← s.program
  (program.elaborate dump).mapError .semantic

/-- The stack-machine listings of a source. -/
def listings (s : Source) (dump : Dump) : Logged Failure (List Assembly.Listing) := do
  let elaborated ← s.elaborated dump
  (Assembly.lowerProgram elaborated.program).mapError .internal

/-- The C unit of a source. -/
def cUnit (s : Source) (dump : Dump) : Logged Failure CUnit := do
  let elaborated ← s.elaborated dump
  (CUnit.lowerProgram elaborated.program).mapError .internal

end Source

end MiniJava
