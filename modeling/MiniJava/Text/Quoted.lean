import MiniJava.Text.Printable
/-!
# Quoted characters

A character in single quotes, readable whatever it is: the quote, the backslash and four control characters have short
escapes, and what cannot be shown by itself is written as its code point in hexadecimal.
-/
namespace MiniJava.Text

/-- What follows the backslash in the characters that have a short escape. -/
def shortEscape? : Char → Option Char
  | '\x00' => some '0'
  | '\t' => some 't'
  | '\r' => some 'r'
  | '\n' => some 'n'
  | '\'' => some '\''
  | '\\' => some '\\'
  | _ => none

def escaped (c : Char) : List Char :=
  match shortEscape? c with
  | some e => ['\\', e]
  | none => if isShowable c then [c] else ['\\', 'u', '\x7b'] ++ Nat.toDigits 16 c.toNat ++ ['\x7d']

def quoted (c : Char) : String := String.ofList ('\'' :: escaped c ++ ['\''])

end MiniJava.Text
