import MiniJava.Assembly.Instr
/-!
# Faults

What can go wrong when a program is turned into code.  A program that has been checked gives no cause for any of these;
a tree without marks, or with the marks of another program, does.
-/
namespace MiniJava

inductive Fault where
  | missingLabel (label : Assembly.Label) (unit : String)
  | duplicateLabel (label : Assembly.Label) (unit : String)
  /-- The node at this span has no mark. -/
  | missingMark (node : Span)
  | unknownClass (cls : Name)
  | unknownMethod (cls method : Name)
  | unknownSlot (name : Name)
  | inheritanceCycle (cls : Name)
  deriving DecidableEq, Repr

/-- The description of a fault in the program read from the text called `source`. -/
def Fault.message (source : String) : Fault → String
  | missingLabel l unit => "label " ++ l.text ++ " is referenced in `" ++ unit ++ "` but never defined"
  | duplicateLabel l unit => "label " ++ l.text ++ " is defined more than once in `" ++ unit ++ "`"
  | missingMark node => "node at " ++ node.place source ++ " was not annotated during elaboration"
  | unknownClass c => "class `" ++ c ++ "` is absent from the back end's class table"
  | unknownMethod c m => "method `" ++ c ++ "." ++ m ++ "` is absent from the back end's class table"
  | unknownSlot x => "variable `" ++ x ++ "` has no assigned slot"
  | inheritanceCycle c => "inheritance cycle reached while flattening class `" ++ c ++ "`"

/-! ## Reading marks -/

/-- The type and home of a variable. -/
def Variable.marks (x : Variable) : Except Fault (Ty × Home) :=
  match x.ty, x.home with
  | some ty, some home => .ok (ty, home)
  | _, _ => .error (.missingMark x.name.span)

def Expr.markedType (e : Expr) : Except Fault Ty :=
  match e.ty with
  | some ty => .ok ty
  | none => .error (.missingMark e.span)

/-- What the call of `method` was resolved to. -/
def Resolution.ofMark (method : Located Name) : Option Resolution → Except Fault Resolution
  | some r => .ok r
  | none => .error (.missingMark method.span)

end MiniJava
