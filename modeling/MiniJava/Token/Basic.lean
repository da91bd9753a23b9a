import MiniJava.Source.Position
/-!
# Tokens

The words and signs of the language.  A token is spelled by its lexeme; identifiers and literals carry what they spell,
all other tokens are their spelling.
-/
namespace MiniJava

abbrev Name := String

inductive Keyword where
  | classKw | publicKw | staticKw | voidKw | mainKw | stringKw | extendsKw | returnKw | intKw | booleanKw | ifKw
  | elseKw | whileKw | printlnKw | lengthKw | trueKw | falseKw | thisKw | newKw
  deriving DecidableEq, Repr

namespace Keyword

def lexeme : Keyword → String
  | classKw => "class"
  | publicKw => "public"
  | staticKw => "static"
  | voidKw => "void"
  | mainKw => "main"
  | stringKw => "String"
  | extendsKw => "extends"
  | returnKw => "return"
  | intKw => "int"
  | booleanKw => "boolean"
  | ifKw => "if"
  | elseKw => "else"
  | whileKw => "while"
  | printlnKw => "System.out.println"
  | lengthKw => "length"
  | trueKw => "true"
  | falseKw => "false"
  | thisKw => "this"
  | newKw => "new"

/-- The keywords that are a single word: all but `System.out.println`. -/
def words : List Keyword :=
  [classKw, publicKw, staticKw, voidKw, mainKw, stringKw, extendsKw, returnKw, intKw, booleanKw, ifKw, elseKw, whileKw,
   lengthKw, trueKw, falseKw, thisKw, newKw]

/-- The keyword that a word spells. -/
def ofWord? (word : String) : Option Keyword := words.find? (·.lexeme = word)

theorem mem_words_iff (k : Keyword) : k ∈ words ↔ k ≠ printlnKw := by cases k <;> decide

end Keyword

inductive Token where
  | ident (name : Name)
  | keyword (word : Keyword)
  | literal (value : Nat)
  | assign | comma | period | semicolon | not | and | less | plus | minus | times
  | openParen | closeParen | openSquare | closeSquare | openCurly | closeCurly
  deriving DecidableEq, Repr

namespace Token

def lexeme : Token → String
  | ident x => x
  | keyword k => k.lexeme
  | literal n => toString n
  | assign => "="
  | comma => ","
  | period => "."
  | semicolon => ";"
  | not => "!"
  | and => "&&"
  | less => "<"
  | plus => "+"
  | minus => "-"
  | times => "*"
  | openParen => "("
  | closeParen => ")"
  | openSquare => "["
  | closeSquare => "]"
  | openCurly => "\x7b"
  | closeCurly => "\x7d"

/-- What sort of token it is, where the lexeme alone does not say so. -/
def sort : Token → String
  | ident _ => "identifier "
  | keyword _ => "keyword "
  | literal _ => "literal "
  | _ => ""

/-- A token as error messages name it. -/
def describe (t : Token) : String := t.sort ++ "`" ++ t.lexeme ++ "`"

/-- The tokens that are a single character. -/
def ofSign? : Char → Option Token
  | '=' => some assign
  | ',' => some comma
  | '.' => some period
  | ';' => some semicolon
  | '!' => some not
  | '<' => some less
  | '+' => some plus
  | '-' => some minus
  | '*' => some times
  | '(' => some openParen
  | ')' => some closeParen
  | '[' => some openSquare
  | ']' => some closeSquare
  | '\x7b' => some openCurly
  | '\x7d' => some closeCurly
  | _ => none

theorem ofSign?_eq_some {c : Char} {t : Token} (h : ofSign? c = some t) : t.lexeme.toList = [c] := by
  unfold ofSign? at h
  split at h <;> first | cases h; rfl | cases h

end Token

end MiniJava
