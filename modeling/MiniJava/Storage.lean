import MiniJava.Tree.Basic
/-!
# Storage

How values are held when a program runs: booleans as integers, arrays and objects behind references.
-/
namespace MiniJava

inductive Storage where
  | int | intArray
  | object (cls : Name)
  deriving DecidableEq, Repr

def Storage.isReference : Storage → Bool
  | int => false
  | intArray | object _ => true

def Ty.storage : Ty → Storage
  | int | boolean => .int
  | intArray => .intArray
  | object c => .object c

def Ty.isReference (ty : Ty) : Bool := ty.storage.isReference

def Declaration.storage (d : Declaration) : Name × Storage := (d.name.val, d.ty.val.storage)

def Method.formalStorages (m : Method) : List Storage := m.formals.map (·.ty.val.storage)

end MiniJava
