import MiniJava.Token.Basic
/-!
# Program trees

A program is a main class, whose body is one statement, and the other classes in order.  Names and types keep the span
that they were read from, expressions the span of their text.

A tree comes out of the parser without marks.  Checking a program marks each expression with its type, each use of a
variable with the variable's type and home, and each call with the signature that it was resolved to.
-/
namespace MiniJava

inductive Ty where
  | int | boolean | intArray
  | object (cls : Name)
  deriving DecidableEq, Repr

protected def Ty.text : Ty → String
  | int => "int"
  | boolean => "boolean"
  | intArray => "int[]"
  | object c => c

/-- A field, a formal parameter or a local variable. -/
structure Declaration where
  name : Located Name
  ty : Located Ty
  deriving DecidableEq, Repr

/-- Where a variable lives: in the method, as a formal or a local, or in the object, as a field. -/
inductive Home where
  | method | object
  deriving DecidableEq, Repr

/-- A use of a name as a variable. -/
structure Variable where
  name : Located Name
  ty : Option Ty
  home : Option Home
  deriving DecidableEq, Repr

/-- A use that nobody has looked up. -/
def Variable.unmarked (name : Located Name) : Variable := ⟨name, none, none⟩

inductive Op where
  | add | sub | mul | less | and
  deriving DecidableEq, Repr

def Op.sign : Op → String
  | add => "+"
  | sub => "-"
  | mul => "*"
  | less => "<"
  | and => "&&"

/-- What a call was resolved to: the receiver's class, the types of the arguments, and the signature of the method. -/
structure Resolution where
  cls : Name
  arguments : List Ty
  formals : List Ty
  returns : Ty
  deriving DecidableEq, Repr

/-- The span of an expression, and its type once it is known. -/
structure Mark where
  span : Span
  ty : Option Ty
  deriving DecidableEq, Repr

inductive Expr where
  | literal (mark : Mark) (value : Nat)
  | bool (mark : Mark) (value : Bool)
  | self (mark : Mark)
  | read (mark : Mark) (x : Variable)
  | binary (mark : Mark) (left : Expr) (op : Op) (right : Expr)
  | not (mark : Mark) (operand : Expr)
  | index (mark : Mark) (array index : Expr)
  | length (mark : Mark) (array : Expr)
  | newArray (mark : Mark) (length : Expr)
  | newObject (mark : Mark) (cls : Located Name)
  | call (mark : Mark) (receiver : Expr) (method : Located Name) (arguments : List Expr)
      (resolution : Option Resolution)
  deriving Repr

namespace Expr

def mark : Expr → Mark
  | literal m _ | bool m _ | self m | read m _ | binary m _ _ _ | not m _ | index m _ _ | length m _ | newArray m _
  | newObject m _ | call m _ _ _ _ => m

def span (e : Expr) : Span := e.mark.span

def ty (e : Expr) : Option Ty := e.mark.ty

end Expr

inductive Stmt where
  | block (body : List Stmt)
  | ite (condition : Expr) (yes no : Stmt)
  | loop (condition : Expr) (body : Stmt)
  | print (value : Expr)
  | assign (target : Variable) (value : Expr)
  /-- Stores into an element of an array. -/
  | store (target : Variable) (index value : Expr)
  deriving Repr

structure Method where
  name : Located Name
  returns : Located Ty
  formals : List Declaration
  locals : List Declaration
  body : List Stmt
  result : Expr
  deriving Repr

structure ClassDecl where
  name : Located Name
  parent : Option (Located Name)
  fields : List Declaration
  methods : List Method
  deriving Repr

structure MainClass where
  name : Located Name
  argument : Located Name
  body : Stmt
  deriving Repr

structure Program where
  main : MainClass
  classes : List ClassDecl
  deriving Repr

end MiniJava
