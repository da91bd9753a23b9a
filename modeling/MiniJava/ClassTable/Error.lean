import MiniJava.Tree.Basic
/-!
# Semantic errors

What can be wrong with a program that is grammatical: with its declarations, with its class hierarchy, or with the
types of its statements.
-/
namespace MiniJava

inductive SemanticError where
  | duplicateClass (cls : Name)
  | duplicateMember (cls member : Name)
  | duplicateVariable (name : Name)
  | unresolvedName (name : Name)
  | typeMismatch (expected found : Ty)
  | expectedObject (found : Ty)
  | arityMismatch (method : Name) (expected found : Nat)
  | inheritanceCycle (cls : Name)
  | staticThis
  deriving DecidableEq, Repr

def SemanticError.message : SemanticError → String
  | duplicateClass c => "Class `" ++ c ++ "` is defined more than once"
  | duplicateMember c m => "Class `" ++ c ++ "` already has a member named `" ++ m ++ "`"
  | duplicateVariable x => "Variable `" ++ x ++ "` is declared more than once in this method"
  | unresolvedName x => "Symbol `" ++ x ++ "` is undefined"
  | typeMismatch t u => "Type mismatch: expected `" ++ t.text ++ "`, found `" ++ u.text ++ "`"
  | expectedObject t => "Expected an object, found `" ++ t.text ++ "`"
  | arityMismatch m expected found =>
    "Method `" ++ m ++ "` takes " ++ toString expected ++ " argument(s), but " ++ toString found ++ " were supplied"
  | inheritanceCycle c => "Class `" ++ c ++ "` is part of an inheritance cycle"
  | staticThis => "`this` is not available inside the static main method"

abbrev Semantic (α : Type) := Except (Located SemanticError) α

end MiniJava
