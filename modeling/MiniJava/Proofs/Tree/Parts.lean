import MiniJava.Tree.Basic
/-!
# The parts of a tree, and the tree without its marks

`parts` lists an expression with all expressions inside it, `expressions` those of a statement, a method, a class or a
program, `targets` the variables that a statement assigns to.  `unmark` takes every mark off, and nothing else.
-/
namespace MiniJava

/-! ## Parts -/

namespace Expr

mutual

/-- The expression itself, then those inside it from left to right. -/
def parts : Expr → List Expr
  | literal m n => [literal m n]
  | bool m b => [bool m b]
  | self m => [self m]
  | read m x => [read m x]
  | binary m l op r => binary m l op r :: (parts l ++ parts r)
  | not m e => not m e :: parts e
  | index m a i => index m a i :: (parts a ++ parts i)
  | length m a => length m a :: parts a
  | newArray m n => newArray m n :: parts n
  | newObject m c => [newObject m c]
  | call m r f es x => call m r f es x :: (parts r ++ partsAll es)

def partsAll : List Expr → List Expr
  | [] => []
  | e :: es => parts e ++ partsAll es

end

end Expr

namespace Stmt

mutual

def expressions : Stmt → List Expr
  | block body => expressionsAll body
  | ite c yes no => c.parts ++ expressions yes ++ expressions no
  | loop c body => c.parts ++ expressions body
  | print e => e.parts
  | assign _ e => e.parts
  | store _ i e => i.parts ++ e.parts

def expressionsAll : List Stmt → List Expr
  | [] => []
  | s :: ss => expressions s ++ expressionsAll ss

end

mutual

def targets : Stmt → List Variable
  | block body => targetsAll body
  | ite _ yes no => targets yes ++ targets no
  | loop _ body => targets body
  | print _ => []
  | assign x _ => [x]
  | store x _ _ => [x]

def targetsAll : List Stmt → List Variable
  | [] => []
  | s :: ss => targets s ++ targetsAll ss

end

end Stmt

/-- All expressions in a method, the body's first. -/
def Method.expressions (m : Method) : List Expr := Stmt.expressionsAll m.body ++ m.result.parts

def ClassDecl.expressions (c : ClassDecl) : List Expr := c.methods.flatMap Method.expressions

def Program.expressions (p : Program) : List Expr := p.main.body.expressions ++ p.classes.flatMap ClassDecl.expressions

/-! ## Taking marks off -/

def Mark.unmark (m : Mark) : Mark := ⟨m.span, none⟩

def Variable.unmark (x : Variable) : Variable := .unmarked x.name

namespace Expr

mutual

def unmark : Expr → Expr
  | literal m n => literal m.unmark n
  | bool m b => bool m.unmark b
  | self m => self m.unmark
  | read m x => read m.unmark x.unmark
  | binary m l op r => binary m.unmark l.unmark op r.unmark
  | not m e => not m.unmark e.unmark
  | index m a i => index m.unmark a.unmark i.unmark
  | length m a => length m.unmark a.unmark
  | newArray m n => newArray m.unmark n.unmark
  | newObject m c => newObject m.unmark c
  | call m r f es _ => call m.unmark r.unmark f (unmarkAll es) none

def unmarkAll : List Expr → List Expr
  | [] => []
  | e :: es => unmark e :: unmarkAll es

end

end Expr

namespace Stmt

mutual

def unmark : Stmt → Stmt
  | block body => block (unmarkAll body)
  | ite c yes no => ite c.unmark yes.unmark no.unmark
  | loop c body => loop c.unmark body.unmark
  | print e => print e.unmark
  | assign x e => assign x.unmark e.unmark
  | store x i e => store x.unmark i.unmark e.unmark

def unmarkAll : List Stmt → List Stmt
  | [] => []
  | s :: ss => unmark s :: unmarkAll ss

end

end Stmt

def Method.unmark (m : Method) : Method := { m with body := Stmt.unmarkAll m.body, result := m.result.unmark }

def ClassDecl.unmark (c : ClassDecl) : ClassDecl := { c with methods := c.methods.map Method.unmark }

def MainClass.unmark (c : MainClass) : MainClass := { c with body := c.body.unmark }

def Program.unmark (p : Program) : Program := ⟨p.main.unmark, p.classes.map ClassDecl.unmark⟩

theorem Program.classNames_unmark (p : Program) : p.unmark.classes.map (·.name.val) = p.classes.map (·.name.val) := by
  show (p.classes.map ClassDecl.unmark).map _ = _
  rw [List.map_map]
  rfl

theorem Program.names_of_unmark_eq {p q : Program} (h : q.unmark = p.unmark) :
    q.main.name.val :: q.classes.map (·.name.val) = p.main.name.val :: p.classes.map (·.name.val) := by
  rw [← q.classNames_unmark, h, p.classNames_unmark]
  exact congrArg (·.main.name.val :: _) h

/-! ## Taking places off

Two trees that differ in nothing but where they were read are the same without their places. -/

/-- The place of everything that has none. -/
def Span.nowhere : Span := ⟨.first, .first⟩

def Located.unplaced {α : Type} (x : Located α) : Located α := ⟨x.val, .nowhere⟩

def Declaration.unplaced (d : Declaration) : Declaration := ⟨d.name.unplaced, d.ty.unplaced⟩

def Mark.unplaced (m : Mark) : Mark := ⟨.nowhere, m.ty⟩

def Variable.unplaced (x : Variable) : Variable := { x with name := x.name.unplaced }

namespace Expr

mutual

def unplaced : Expr → Expr
  | literal m n => literal m.unplaced n
  | bool m b => bool m.unplaced b
  | self m => self m.unplaced
  | read m x => read m.unplaced x.unplaced
  | binary m l op r => binary m.unplaced l.unplaced op r.unplaced
  | not m e => not m.unplaced e.unplaced
  | index m a i => index m.unplaced a.unplaced i.unplaced
  | length m a => length m.unplaced a.unplaced
  | newArray m n => newArray m.unplaced n.unplaced
  | newObject m c => newObject m.unplaced c.unplaced
  | call m r f es res => call m.unplaced r.unplaced f.unplaced (unplacedAll es) res

def unplacedAll : List Expr → List Expr
  | [] => []
  | e :: es => unplaced e :: unplacedAll es

end

end Expr

namespace Stmt

mutual

def unplaced : Stmt → Stmt
  | block body => block (unplacedAll body)
  | ite c yes no => ite c.unplaced yes.unplaced no.unplaced
  | loop c body => loop c.unplaced body.unplaced
  | print e => print e.unplaced
  | assign x e => assign x.unplaced e.unplaced
  | store x i e => store x.unplaced i.unplaced e.unplaced

def unplacedAll : List Stmt → List Stmt
  | [] => []
  | s :: ss => unplaced s :: unplacedAll ss

end

end Stmt

def Method.unplaced (m : Method) : Method where
  name := m.name.unplaced
  returns := m.returns.unplaced
  formals := m.formals.map Declaration.unplaced
  locals := m.locals.map Declaration.unplaced
  body := Stmt.unplacedAll m.body
  result := m.result.unplaced

def ClassDecl.unplaced (c : ClassDecl) : ClassDecl :=
  ⟨c.name.unplaced, c.parent.map Located.unplaced, c.fields.map Declaration.unplaced, c.methods.map Method.unplaced⟩

def MainClass.unplaced (c : MainClass) : MainClass := ⟨c.name.unplaced, c.argument.unplaced, c.body.unplaced⟩

def Program.unplaced (p : Program) : Program := ⟨p.main.unplaced, p.classes.map ClassDecl.unplaced⟩

end MiniJava
