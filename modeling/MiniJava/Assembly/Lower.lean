import MiniJava.Assembly.Labels
import MiniJava.Log
import MiniJava.Lowering.Lineage
/-!
# From trees to stack-machine code

Every expression becomes code that leaves its value on the stack, every statement code that leaves the stack as it was.
The machine has neither booleans nor structured control: comparisons, negations, branches and loops become jumps
between labels.  Labels are numbered through the whole program in the order in which the lowering asks for them.

Slot 0 holds the object, the slots after it the formals and the locals in the order of their declarations.
-/
namespace MiniJava.Assembly

/-! ## Slots -/

/-- Numbers names from `n` on.  A name that comes up again counts only where it comes last. -/
def numberFrom (n : Nat) : List Name → List (Name × Nat)
  | [] => []
  | x :: xs => if x ∈ xs then numberFrom (n + 1) xs else (x, n) :: numberFrom (n + 1) xs

/-- The slots of a method's variables, in ascending order. -/
def slotsOf (m : Method) : List (Name × Nat) := numberFrom 1 ((m.formals ++ m.locals).map (·.name.val))

/-! ## Interfaces -/

/-- The formals and the result of each method that a class has, inherited ones too. -/
abbrev Interface := Table Name (List Storage × Storage)

def interfaceOf (line : List ClassDecl) : Interface :=
  Table.ofList <| (line.flatMap (·.methods)).map fun m => (m.name.val, m.formalStorages, m.returns.val.storage)

/-- The interfaces of all classes of a program. -/
def interfacesOf (p : Program) : Except Fault (Table Name Interface) := do
  let index := p.classIndex
  let interfaces ← index.keys.mapM fun c => do return (c, interfaceOf (← lineage index c))
  return Table.ofList interfaces

def methodRef (interfaces : Table Name Interface) (c m : Name) : Except Fault MethodRef :=
  match interfaces.get? c with
  | none => .error (.unknownClass c)
  | some interface =>
    match interface.get? m with
    | none => .error (.unknownMethod c m)
    | some (formals, returns) => .ok ⟨c, m, formals, returns⟩

/-! ## Expressions and statements -/

/-- A lowering that asks for labels: the state is the number of the next one. -/
abbrev Emit (α : Type) := StateT Nat (Except Fault) α

def freshLabel : Emit Label := fun n => .ok (⟨n⟩, n + 1)

/-- What a method's code refers to: the interfaces, the class of the method, and the slots of its variables. -/
structure Frame where
  interfaces : Table Name Interface
  cls : Name
  slots : List (Name × Nat)

namespace Frame

def slot (f : Frame) (x : Located Name) : Except Fault Nat :=
  match valueOf? x.val f.slots with
  | some n => .ok n
  | none => .error (.unknownSlot x.val)

/-- Code that loads a variable. -/
def load (f : Frame) (x : Variable) : Except Fault (List Instr) := do
  let (ty, home) ← x.marks
  match home with
  | .method =>
    let n ← f.slot x.name
    return [if ty.isReference then .aload n else .iload n]
  | .object => return [.aload 0, .getfield f.cls x.name.val ty.storage]

/-- Code that loads the array that a variable holds. -/
def loadArray (f : Frame) (x : Variable) : Except Fault (List Instr) := do
  let (_, home) ← x.marks
  match home with
  | .method => return [.aload (← f.slot x.name)]
  | .object => return [.aload 0, .getfield f.cls x.name.val .intArray]

/-- Code around that of a value, which stores the value in a variable. -/
def store (f : Frame) (x : Variable) : Except Fault (List Instr × List Instr) := do
  let (ty, home) ← x.marks
  match home with
  | .method =>
    let n ← f.slot x.name
    return ([], [if ty.isReference then .astore n else .istore n])
  | .object => return ([.aload 0], [.putfield f.cls x.name.val ty.storage])

/-- Code that replaces the two operands on the stack by the result. -/
def applyOp : Op → Emit (List Instr)
  | .add => return [.iadd]
  | .sub => return [.isub]
  | .mul => return [.imul]
  | .and => return [.iand]
  | .less => do
    let yes ← freshLabel
    let no ← freshLabel
    let done ← freshLabel
    return [.ificmplt yes, .label no, .ldc 0, .goto done, .label yes, .ldc 1, .goto done, .label done]

mutual

def lowerExpr (f : Frame) : Expr → Emit (List Instr)
  | .literal _ n => return [.ldc n]
  | .bool _ b => return [.ldc (if b then 1 else 0)]
  | .self _ => return [.aload 0]
  | .read _ x => f.load x
  | .binary _ left op right => do
    let left ← f.lowerExpr left
    let right ← f.lowerExpr right
    let apply ← applyOp op
    return left ++ right ++ apply
  | .not _ e => do
    let nonzero ← freshLabel
    let done ← freshLabel
    let e ← f.lowerExpr e
    return e ++ [.ifne nonzero, .ldc 1, .goto done, .label nonzero, .ldc 0, .label done]
  | .index _ array i => do
    let array ← f.lowerExpr array
    let i ← f.lowerExpr i
    return array ++ i ++ [.iaload]
  | .length _ array => do
    let array ← f.lowerExpr array
    return array ++ [.arraylength]
  | .newArray _ n => do
    let n ← f.lowerExpr n
    return n ++ [.newarray]
  | .newObject _ c => return [.new c.val]
  | .call _ receiver method arguments resolution => do
    let r ← Resolution.ofMark method resolution
    let ref ← methodRef f.interfaces r.cls method.val
    let receiver ← f.lowerExpr receiver
    let arguments ← f.lowerExprs arguments
    return receiver ++ arguments ++ [.invokevirtual ref]

def lowerExprs (f : Frame) : List Expr → Emit (List Instr)
  | [] => return []
  | e :: es => do
    let e ← f.lowerExpr e
    let es ← f.lowerExprs es
    return e ++ es

end

mutual

/-- The branch not taken by the jump of an `if` comes first, so its code is the one for the condition being false. -/
def lowerStmt (f : Frame) : Stmt → Emit (List Instr)
  | .block body => f.lowerStmts body
  | .ite condition yes no => do
    let yesLabel ← freshLabel
    let noLabel ← freshLabel
    let done ← freshLabel
    let condition ← f.lowerExpr condition
    let no ← f.lowerStmt no
    let yes ← f.lowerStmt yes
    return condition ++ [.ifne yesLabel, .label noLabel] ++ no ++ [.goto done, .label yesLabel] ++ yes
      ++ [.goto done, .label done]
  | .loop condition body => do
    let test ← freshLabel
    let done ← freshLabel
    let condition ← f.lowerExpr condition
    let body ← f.lowerStmt body
    return .label test :: condition ++ [.ifeq done] ++ body ++ [.goto test, .label done]
  | .print e => do
    let e ← f.lowerExpr e
    return e ++ [.print]
  | .assign x e => do
    let (before, after) ← f.store x
    let e ← f.lowerExpr e
    return before ++ e ++ after
  | .store x i e => do
    let array ← f.loadArray x
    let i ← f.lowerExpr i
    let e ← f.lowerExpr e
    return array ++ i ++ e ++ [.iastore]

def lowerStmts (f : Frame) : List Stmt → Emit (List Instr)
  | [] => return []
  | s :: ss => do
    let s ← f.lowerStmt s
    let ss ← f.lowerStmts ss
    return s ++ ss

end

/-- The code of a method's body, its result and the return. -/
def lowerBody (f : Frame) (m : Method) : Emit (List Instr) := do
  let body ← f.lowerStmts m.body
  let result ← f.lowerExpr m.result
  return body ++ result ++ [if m.returns.val.isReference then .areturn else .ireturn]

end Frame

/-! ## Programs -/

/-- A lowering that asks for labels and reports its progress. -/
abbrev Emission (α : Type) := StateT Nat (Logged Fault) α

/-- Code that belongs to what `unit` names, its labels checked. -/
def checked (unit : String) (code : Emit (List Instr)) : Emission (List Instr) := fun n =>
  Logged.ofExcept do
    let (code, n) ← code n
    checkLabels unit code
    return (code, n)

def report (level : Level) (text : String) : Emission Unit := fun n => do
  Logged.note level text
  return ((), n)

def lowerMethod (interfaces : Table Name Interface) (c : Name) (m : Method) : Emission MethodListing := do
  let slots := slotsOf m
  let name := c ++ "." ++ m.name.val
  report .trace (name ++ " uses " ++ toString (slots.length + 1) ++ " slots")
  let code ← checked name (Frame.lowerBody ⟨interfaces, c, slots⟩ m)
  return ⟨m.name.val, m.formalStorages, m.returns.val.storage, slots.length + 1, code⟩

def lowerClass (interfaces : Table Name Interface) (c : ClassDecl) : Emission ClassListing := do
  report .debug ("translating class " ++ c.name.val ++ " to bytecode")
  let methods ← c.methods.mapM (lowerMethod interfaces c.name.val)
  return ⟨c.name.val, c.parent.map (·.val), c.fields.map Declaration.storage, methods⟩

def lowerMain (interfaces : Table Name Interface) (main : MainClass) : Emission (List Instr) := do
  report .debug ("translating main class " ++ main.name.val ++ " to bytecode")
  checked main.name.val (Frame.lowerStmt ⟨interfaces, main.name.val, []⟩ main.body)

def lowerClasses (interfaces : Table Name Interface) (p : Program) : Emission (List Listing) := do
  let main ← lowerMain interfaces p.main
  let classes ← p.classes.mapM (lowerClass interfaces)
  return .main p.main.name.val main :: classes.map .cls

/-- The listings of a program: the main class, then the other classes in order. -/
def lowerProgram (p : Program) : Logged Fault (List Listing) := do
  let interfaces ← interfacesOf p
  let (listings, _) ← lowerClasses interfaces p 0
  return listings

end MiniJava.Assembly
