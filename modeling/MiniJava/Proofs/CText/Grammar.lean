import MiniJava.Proofs.CText.Tokens
/-!
# The grammar of C

Which tokens yield which tree, for the expressions and statements of C that bodies are made of.

Expressions come in layers, one for each number from 0 to 16, the loosest first: 0 is the comma, 1 assignment, 3 to 12 are
the layers of the other binary operators, 13 are casts, 14 the operators in front of an operand, 15 what stands behind
one, and 16 is what stands by itself or in parentheses.  (In layer 2 C has the conditional operator, which no unit uses.)
What is of one layer is of every looser one too.  Binary operators group to the left, since their right operands are of a
tighter layer, and assignments to the right.

An `else` belongs to the nearest `if` that can have it: a statement that such an `else` could go on from is open, and
stands in front of no other `else`.

A tag is any word, and so is a name but for the words of the grammar itself: which words are reserved in C is another
matter.
-/
namespace MiniJava.CText

open CToken (word number mark)

/-! ## Trees -/

/-- A type as casts name it: that of integers, or the structure with a tag, behind some stars. -/
structure CType where
  tag : Option String
  stars : Nat
  deriving DecidableEq, Repr

inductive CTree where
  | name (x : String)
  | number (n : Nat)
  | unary (op : String) (operand : CTree)
  | cast (type : CType) (operand : CTree)
  | binary (op : String) (left right : CTree)
  | assign (target value : CTree)
  | index (array index : CTree)
  | call (function : CTree) (arguments : List CTree)
  | member (operand : CTree) (name : String)
  | arrow (operand : CTree) (name : String)
  deriving Repr

inductive CStmtTree where
  | block (body : List CStmtTree)
  | ite (condition : CTree) (yes no : CStmtTree)
  | when (condition : CTree) (yes : CStmtTree)
  | loop (condition : CTree) (body : CStmtTree)
  | expression (value : CTree)
  deriving Repr

/-! ## Words and operators -/

/-- The words of the grammar itself. -/
def grammarWords : List String := ["int", "struct", "if", "else", "while"]

def CType.tokens (ty : CType) : List CToken :=
  (match ty.tag with
    | none => [word "int"]
    | some tag => [word "struct", word tag]) ++ List.replicate ty.stars (mark "*")

/-- The binary operators that group to the left, each with its layer. -/
def operators : List (String × Nat) :=
  [(",", 0), ("||", 3), ("&&", 4), ("|", 5), ("^", 6), ("&", 7), ("==", 8), ("!=", 8), ("<", 9), (">", 9), ("<=", 9),
    (">=", 9), ("<<", 10), (">>", 10), ("+", 11), ("-", 11), ("*", 12), ("%", 12)]

/-- The operators in front of an operand. -/
def unaryOperators : List String := ["&", "*", "+", "-", "~", "!"]

/-! ## Expressions -/

mutual

/-- **The tokens that yield an expression of layer `k`.**  Parentheses leave no node. -/
inductive Exp : Nat → List CToken → CTree → Prop
  | looser {k : Nat} {ts : List CToken} {e : CTree} : k < 16 → Exp (k + 1) ts e → Exp k ts e
  | binary {k : Nat} {op : String} {ls rs : List CToken} {l r : CTree} : (op, k) ∈ operators → Exp k ls l →
      Exp (k + 1) rs r → Exp k (ls ++ mark op :: rs) (.binary op l r)
  | assign {ls rs : List CToken} {l r : CTree} : Exp 14 ls l → Exp 1 rs r → Exp 1 (ls ++ mark "=" :: rs) (.assign l r)
  | cast {ty : CType} {ts : List CToken} {e : CTree} : Exp 13 ts e →
      Exp 13 (mark "(" :: ty.tokens ++ mark ")" :: ts) (.cast ty e)
  | unary {op : String} {ts : List CToken} {e : CTree} : op ∈ unaryOperators → Exp 13 ts e →
      Exp 14 (mark op :: ts) (.unary op e)
  | index {as is : List CToken} {a i : CTree} : Exp 15 as a → Exp 0 is i →
      Exp 15 (as ++ mark "[" :: is ++ [mark "]"]) (.index a i)
  | call {fs as : List CToken} {f : CTree} {es : List CTree} : Exp 15 fs f → Arguments as es →
      Exp 15 (fs ++ mark "(" :: as ++ [mark ")"]) (.call f es)
  | member {ts : List CToken} {e : CTree} {x : String} : Exp 15 ts e → Exp 15 (ts ++ [mark ".", word x]) (.member e x)
  | arrow {ts : List CToken} {e : CTree} {x : String} : Exp 15 ts e → Exp 15 (ts ++ [mark "->", word x]) (.arrow e x)
  | name {x : String} : x ∉ grammarWords → Exp 16 [word x] (.name x)
  | number {n : Nat} : Exp 16 [number n] (.number n)
  | paren {ts : List CToken} {e : CTree} : Exp 0 ts e → Exp 16 (mark "(" :: ts ++ [mark ")"]) e

/-- Assignments with commas between them, or nothing. -/
inductive Arguments : List CToken → List CTree → Prop
  | none : Arguments [] []
  | some {ts : List CToken} {es : List CTree} : ArgumentList ts es → Arguments ts es

inductive ArgumentList : List CToken → List CTree → Prop
  | last {ts : List CToken} {e : CTree} : Exp 1 ts e → ArgumentList ts [e]
  | cons {ts us : List CToken} {e : CTree} {es : List CTree} : Exp 1 ts e → ArgumentList us es →
      ArgumentList (ts ++ mark "," :: us) (e :: es)

end

/-! ## Statements -/

mutual

/-- **The tokens that yield a statement**, which is closed unless an `else` could go on from it. -/
inductive Statement : Bool → List CToken → CStmtTree → Prop
  | block {ts : List CToken} {body : List CStmtTree} : Statements ts body →
      Statement true (mark "\x7b" :: ts ++ [mark "\x7d"]) (.block body)
  | ite {closed : Bool} {cs ys ns : List CToken} {c : CTree} {yes no : CStmtTree} :
      Exp 0 cs c → Statement true ys yes → Statement closed ns no →
      Statement closed (word "if" :: mark "(" :: cs ++ mark ")" :: ys ++ word "else" :: ns) (.ite c yes no)
  | when {closed : Bool} {cs ys : List CToken} {c : CTree} {yes : CStmtTree} : Exp 0 cs c → Statement closed ys yes →
      Statement false (word "if" :: mark "(" :: cs ++ mark ")" :: ys) (.when c yes)
  | loop {closed : Bool} {cs bs : List CToken} {c : CTree} {body : CStmtTree} : Exp 0 cs c → Statement closed bs body →
      Statement closed (word "while" :: mark "(" :: cs ++ mark ")" :: bs) (.loop c body)
  | expression {ts : List CToken} {e : CTree} : Exp 0 ts e → Statement true (ts ++ [mark ";"]) (.expression e)

/-- Statements in a row. -/
inductive Statements : List CToken → List CStmtTree → Prop
  | nil : Statements [] []
  | cons {closed : Bool} {ts us : List CToken} {s : CStmtTree} {ss : List CStmtTree} : Statement closed ts s →
      Statements us ss → Statements (ts ++ us) (s :: ss)

end

theorem Statements.append : ∀ {ts us : List CToken} {ss ss' : List CStmtTree}, Statements ts ss → Statements us ss' →
    Statements (ts ++ us) (ss ++ ss')
  | _, _, _, _, .nil, h' => h'
  | _, _, _, _, .cons hs hss, h' => by
    rw [List.append_assoc]
    exact .cons hs (hss.append h')

end MiniJava.CText
