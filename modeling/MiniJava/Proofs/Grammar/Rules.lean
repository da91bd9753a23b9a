import MiniJava.Tree.Rules
/-!
# The grammar

The language's grammar, apart from any reader of it: for each nonterminal, which tokens yield which tree.  A tree bears
the places of the tokens that it comes from and no other marks.

Expressions come in layers, one for each number from 0 to 6, the loosest first; what is of one layer is of every looser
one too.  The binary operators group to the left, since their right operands are of a tighter layer.
-/
namespace MiniJava.Grammar

/-! ## Repetition -/

section

variable {α : Type}

/-- Tokens that are the given ones, wherever they stand. -/
def Fixed (expected : List Token) (ts : Tokens) : Prop := ts.map (·.val) = expected

/-- Any number of constructs in a row. -/
inductive Star (R : Tokens → α → Prop) : Tokens → List α → Prop
  | nil : Star R [] []
  | cons {ts us : Tokens} {a : α} {as : List α} : R ts a → Star R us as → Star R (ts ++ us) (a :: as)

/-- Any number of constructs, each with a comma before it. -/
inductive Commas (R : Tokens → α → Prop) : Tokens → List α → Prop
  | nil : Commas R [] []
  | cons {s : Span} {ts us : Tokens} {a : α} {as : List α} :
      R ts a → Commas R us as → Commas R (⟨.comma, s⟩ :: ts ++ us) (a :: as)

/-- Any number of constructs with commas between them. -/
inductive Separated (R : Tokens → α → Prop) : Tokens → List α → Prop
  | nil : Separated R [] []
  | cons {ts us : Tokens} {a : α} {as : List α} : R ts a → Commas R us as → Separated R (ts ++ us) (a :: as)

end

/-! ## Names and declarations -/

inductive Id : Tokens → Located Name → Prop
  | intro {x : Name} {s : Span} : Id [⟨.ident x, s⟩] ⟨x, s⟩

inductive TypeName : Tokens → Located Ty → Prop
  | intArray {s sOpen sClose : Span} :
      TypeName [⟨.keyword .intKw, s⟩, ⟨.openSquare, sOpen⟩, ⟨.closeSquare, sClose⟩] ⟨.intArray, s.join sClose⟩
  | boolean {s : Span} : TypeName [⟨.keyword .booleanKw, s⟩] ⟨.boolean, s⟩
  | int {s : Span} : TypeName [⟨.keyword .intKw, s⟩] ⟨.int, s⟩
  | object {c : Name} {s : Span} : TypeName [⟨.ident c, s⟩] ⟨.object c, s⟩

inductive Decl : Tokens → Declaration → Prop
  | intro {ts us : Tokens} {ty : Located Ty} {name : Located Name} :
      TypeName ts ty → Id us name → Decl (ts ++ us) ⟨name, ty⟩

inductive VarDecl : Tokens → Declaration → Prop
  | intro {ts : Tokens} {d : Declaration} {s : Span} : Decl ts d → VarDecl (ts ++ [⟨.semicolon, s⟩]) d

/-! ## Expressions -/

/-- The binary operators, each with its layer. -/
inductive Operator : Token → Op → Nat → Prop
  | and : Operator .and .and 0
  | less : Operator .less .less 1
  | add : Operator .plus .add 2
  | sub : Operator .minus .sub 2
  | mul : Operator .times .mul 3

/-- **The tokens that yield an expression of layer `k`**: 0 to 3 are the layers of the binary operators, 4 is negation,
5 are indexing, lengths and calls, and 6 is what stands by itself or in parentheses.  Parentheses leave no node. -/
inductive Exp : Nat → Tokens → Expr → Prop
  | looser {k : Nat} {ts : Tokens} {e : Expr} : Exp (k + 1) ts e → Exp k ts e
  | binary {k : Nat} {t : Token} {op : Op} {s : Span} {ls rs : Tokens} {l r : Expr} :
      Operator t op k → Exp k ls l → Exp (k + 1) rs r →
      Exp k (ls ++ ⟨t, s⟩ :: rs) (.binary ⟨l.span.join r.span, none⟩ l op r)
  | not {s : Span} {ts : Tokens} {e : Expr} : Exp 4 ts e → Exp 4 (⟨.not, s⟩ :: ts) (.not ⟨s.join e.span, none⟩ e)
  | index {sOpen sClose : Span} {as is : Tokens} {a i : Expr} : Exp 5 as a → Exp 0 is i →
      Exp 5 (as ++ ⟨.openSquare, sOpen⟩ :: is ++ [⟨.closeSquare, sClose⟩]) (.index ⟨a.span.join sClose, none⟩ a i)
  | length {s sWord : Span} {as : Tokens} {a : Expr} : Exp 5 as a →
      Exp 5 (as ++ [⟨.period, s⟩, ⟨.keyword .lengthKw, sWord⟩]) (.length ⟨a.span.join sWord, none⟩ a)
  | call {s sOpen sClose : Span} {rs ms as : Tokens} {r : Expr} {m : Located Name} {es : List Expr} :
      Exp 5 rs r → Id ms m → Separated (Exp 0) as es →
      Exp 5 (rs ++ ⟨.period, s⟩ :: ms ++ ⟨.openParen, sOpen⟩ :: as ++ [⟨.closeParen, sClose⟩])
        (.call ⟨r.span.join sClose, none⟩ r m es none)
  | literal {n : Nat} {s : Span} : Exp 6 [⟨.literal n, s⟩] (.literal ⟨s, none⟩ n)
  | true {s : Span} : Exp 6 [⟨.keyword .trueKw, s⟩] (.bool ⟨s, none⟩ true)
  | false {s : Span} : Exp 6 [⟨.keyword .falseKw, s⟩] (.bool ⟨s, none⟩ false)
  | self {s : Span} : Exp 6 [⟨.keyword .thisKw, s⟩] (.self ⟨s, none⟩)
  | read {x : Name} {s : Span} : Exp 6 [⟨.ident x, s⟩] (.read ⟨s, none⟩ (.unmarked ⟨x, s⟩))
  | newArray {s sInt sOpen sClose : Span} {ns : Tokens} {n : Expr} : Exp 0 ns n →
      Exp 6 (⟨.keyword .newKw, s⟩ :: ⟨.keyword .intKw, sInt⟩ :: ⟨.openSquare, sOpen⟩ :: ns ++ [⟨.closeSquare, sClose⟩])
        (.newArray ⟨s.join sClose, none⟩ n)
  | newObject {s sOpen sClose : Span} {cs : Tokens} {c : Located Name} : Id cs c →
      Exp 6 (⟨.keyword .newKw, s⟩ :: cs ++ [⟨.openParen, sOpen⟩, ⟨.closeParen, sClose⟩])
        (.newObject ⟨s.join sClose, none⟩ c)
  | paren {sOpen sClose : Span} {ts : Tokens} {e : Expr} : Exp 0 ts e →
      Exp 6 (⟨.openParen, sOpen⟩ :: ts ++ [⟨.closeParen, sClose⟩]) e

/-! ## Statements -/

/-- An expression in parentheses, as conditions are. -/
inductive Condition : Tokens → Expr → Prop
  | intro {sOpen sClose : Span} {ts : Tokens} {e : Expr} : Exp 0 ts e →
      Condition (⟨.openParen, sOpen⟩ :: ts ++ [⟨.closeParen, sClose⟩]) e

/-- **The tokens that yield a statement**, in six forms. -/
inductive Statement : Tokens → Stmt → Prop
  | block {sOpen sClose : Span} {ts : Tokens} {body : List Stmt} : Star Statement ts body →
      Statement (⟨.openCurly, sOpen⟩ :: ts ++ [⟨.closeCurly, sClose⟩]) (.block body)
  | ite {s sElse : Span} {cs ys ns : Tokens} {c : Expr} {yes no : Stmt} :
      Condition cs c → Statement ys yes → Statement ns no →
      Statement (⟨.keyword .ifKw, s⟩ :: cs ++ ys ++ ⟨.keyword .elseKw, sElse⟩ :: ns) (.ite c yes no)
  | loop {s : Span} {cs bs : Tokens} {c : Expr} {body : Stmt} : Condition cs c → Statement bs body →
      Statement (⟨.keyword .whileKw, s⟩ :: cs ++ bs) (.loop c body)
  | print {s sEnd : Span} {es : Tokens} {e : Expr} : Condition es e →
      Statement (⟨.keyword .printlnKw, s⟩ :: es ++ [⟨.semicolon, sEnd⟩]) (.print e)
  | assign {x : Name} {s sAssign sEnd : Span} {es : Tokens} {e : Expr} : Exp 0 es e →
      Statement (⟨.ident x, s⟩ :: ⟨.assign, sAssign⟩ :: (es ++ [⟨.semicolon, sEnd⟩])) (.assign (.unmarked ⟨x, s⟩) e)
  | store {x : Name} {s sOpen sClose sAssign sEnd : Span} {is es : Tokens} {i e : Expr} : Exp 0 is i → Exp 0 es e →
      Statement (⟨.ident x, s⟩ :: ⟨.openSquare, sOpen⟩ :: (is ++ ⟨.closeSquare, sClose⟩ :: ⟨.assign, sAssign⟩ ::
        (es ++ [⟨.semicolon, sEnd⟩]))) (.store (.unmarked ⟨x, s⟩) i e)

/-! ## Classes -/

inductive MethodDecl : Tokens → Method → Prop
  | intro {s sOpen sReturn : Span} {ts ns fs bs ls ss es zs : Tokens} {returns : Located Ty} {name : Located Name}
      {formals locals : List Declaration} {body : List Stmt} {result : Expr} :
      TypeName ts returns → Id ns name → Separated Decl fs formals → Fixed [.closeParen, .openCurly] bs →
      Star VarDecl ls locals → Star Statement ss body → Exp 0 es result → Fixed [.semicolon, .closeCurly] zs →
      MethodDecl (⟨.keyword .publicKw, s⟩ :: ts ++ ns ++ ⟨.openParen, sOpen⟩ :: fs ++ bs ++ ls ++ ss
        ++ ⟨.keyword .returnKw, sReturn⟩ :: es ++ zs) ⟨name, returns, formals, locals, body, result⟩

inductive Extends : Tokens → Option (Located Name) → Prop
  | root : Extends [] none
  | parent {s : Span} {ts : Tokens} {c : Located Name} : Id ts c → Extends (⟨.keyword .extendsKw, s⟩ :: ts) (some c)

inductive Class : Tokens → ClassDecl → Prop
  | intro {s sOpen sClose : Span} {ns ps fs ms : Tokens} {name : Located Name} {parent : Option (Located Name)}
      {fields : List Declaration} {methods : List Method} :
      Id ns name → Extends ps parent → Star VarDecl fs fields → Star MethodDecl ms methods →
      Class (⟨.keyword .classKw, s⟩ :: ns ++ ps ++ ⟨.openCurly, sOpen⟩ :: fs ++ ms ++ [⟨.closeCurly, sClose⟩])
        ⟨name, parent, fields, methods⟩

/-- The main class: one static method, whose body is exactly one statement. -/
inductive Main : Tokens → MainClass → Prop
  | intro {s : Span} {ns hs as bs ss zs : Tokens} {name argument : Located Name} {body : Stmt} :
      Id ns name →
      Fixed [.openCurly, .keyword .publicKw, .keyword .staticKw, .keyword .voidKw, .keyword .mainKw, .openParen,
        .keyword .stringKw, .openSquare, .closeSquare] hs →
      Id as argument → Fixed [.closeParen, .openCurly] bs → Statement ss body →
      Fixed [.closeCurly, .closeCurly] zs →
      Main (⟨.keyword .classKw, s⟩ :: ns ++ hs ++ as ++ bs ++ ss ++ zs) ⟨name, argument, body⟩

/-- **The tokens that yield a program**: the main class, then the other classes. -/
inductive Goal : Tokens → Program → Prop
  | intro {ts us : Tokens} {main : MainClass} {classes : List ClassDecl} :
      Main ts main → Star Class us classes → Goal (ts ++ us) ⟨main, classes⟩

end MiniJava.Grammar
