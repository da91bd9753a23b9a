import MiniJava.Storage
/-!
# Stack-machine code

Instructions of a stack machine with numbered variable slots, symbolic jump targets and virtual calls.  Code is
gathered into listings, one for each class.
-/
namespace MiniJava.Assembly

/-- A place in the code to jump to. -/
structure Label where
  number : Nat
  deriving DecidableEq, Repr

protected def Label.text (l : Label) : String := "L_" ++ toString l.number

/-- A method as a call names it: by class, name and types. -/
structure MethodRef where
  cls : Name
  method : Name
  formals : List Storage
  returns : Storage
  deriving DecidableEq, Repr

inductive Instr where
  | aload (slot : Nat) | astore (slot : Nat) | iload (slot : Nat) | istore (slot : Nat)
  | ldc (value : Int)
  | iadd | isub | imul | iand | iaload | iastore | arraylength | newarray
  | new (cls : Name)
  | getfield (cls field : Name) (storage : Storage)
  | putfield (cls field : Name) (storage : Storage)
  | goto (target : Label) | ifne (target : Label) | ifeq (target : Label) | ificmplt (target : Label)
  | label (here : Label)
  | invokevirtual (method : MethodRef)
  | ireturn | areturn
  | print
  deriving DecidableEq, Repr

namespace Instr

/-- The label that an instruction stands for. -/
def defines? : Instr → Option Label
  | label l => some l
  | _ => none

/-- The label that an instruction can jump to. -/
def target? : Instr → Option Label
  | goto l | ifne l | ifeq l | ificmplt l => some l
  | _ => none

end Instr

structure MethodListing where
  name : Name
  formals : List Storage
  returns : Storage
  /-- How many slots there are, the object's own among them. -/
  slots : Nat
  code : List Instr
  deriving DecidableEq, Repr

structure ClassListing where
  name : Name
  parent : Option Name
  fields : List (Name × Storage)
  methods : List MethodListing
  deriving DecidableEq, Repr

/-- The code of the main class, or of another one. -/
inductive Listing where
  | main (name : Name) (code : List Instr)
  | cls (listing : ClassListing)
  deriving DecidableEq, Repr

def Listing.name : Listing → Name
  | main name _ => name
  | cls c => c.name

end MiniJava.Assembly
