import MiniJava.Storage
/-!
# C units

A file of C as a procedural tree: a structure and a virtual table for each class, a function for each method, and the
main function.  Functions take the object as an explicit argument.  Each function that belongs to a method keeps its
locals in a frame that the garbage collector can walk; the temporaries of its calls stay outside of the frame.
-/
namespace MiniJava.CUnit

/-- Which of a row of variables hold references, for the collector to follow. -/
abbrev GcMap := List Bool

def gcMapOf (storages : List Storage) : GcMap := storages.map Storage.isReference

/-- Where a variable is: in the frame, among the function's arguments, or in the object. -/
inductive Place where
  | frame (name : Name)
  | formal (name : Name)
  | field (name : Name)
  deriving DecidableEq, Repr

inductive CExpr where
  | int (value : Int)
  | self
  | read (place : Place)
  | binary (left : CExpr) (op : Op) (right : CExpr)
  | not (operand : CExpr)
  | index (array index : CExpr)
  | length (array : CExpr)
  /-- A virtual call.  The receiver is put into the temporary first, then passed on from there. -/
  | call (temp : Nat) (receiver : CExpr) (method : Name) (arguments : List CExpr)
  | newArray (length : CExpr)
  | newObject (cls : Name)
  | cast (target : Storage) (value : CExpr)
  deriving Inhabited, Repr

inductive CStmt where
  | block (body : List CStmt)
  | ite (condition : CExpr) (yes no : CStmt)
  | loop (condition : CExpr) (body : CStmt)
  | print (value : CExpr)
  | assign (place : Place) (value : CExpr)
  | store (place : Place) (index value : CExpr)
  deriving Inhabited, Repr

/-- The layout of a class's objects: inherited fields first. -/
structure Layout where
  cls : Name
  fields : List (Name × Storage)
  deriving DecidableEq, Repr

/-- An entry of a virtual table: a method, and the class whose method it is that runs. -/
structure Slot where
  method : Name
  implementor : Name
  returns : Storage
  formals : List Storage
  deriving DecidableEq, Repr

structure Vtable where
  cls : Name
  /-- The map of the fields of the class's layout. -/
  gcMap : GcMap
  slots : List Slot
  deriving DecidableEq, Repr

structure Function where
  cls : Name
  name : Name
  returns : Storage
  formals : List (Name × Storage)
  locals : List (Name × Storage)
  temps : List (Nat × Storage)
  /-- The map of the object and the formals. -/
  argumentsMap : GcMap
  localsMap : GcMap
  body : List CStmt
  result : CExpr
  deriving Repr

structure MainFunction where
  temps : List (Nat × Storage)
  body : CStmt
  deriving Repr

end MiniJava.CUnit

namespace MiniJava

structure CUnit where
  layouts : List CUnit.Layout
  vtables : List CUnit.Vtable
  functions : List CUnit.Function
  main : CUnit.MainFunction
  deriving Repr

end MiniJava
