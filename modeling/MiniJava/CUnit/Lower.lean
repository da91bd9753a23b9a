import MiniJava.CUnit.Basic
import MiniJava.Log
import MiniJava.Lowering.Lineage
/-!
# From trees to C

A class's layout and virtual table come from its lineage, root first.  A field or method that a descendant declares
again keeps the place that the ancestor gave it, so that code for the ancestor finds it there.

Each call has a temporary of its own, numbered within the function in the order of the calls, an outer call before the
calls within it.
-/
namespace MiniJava.CUnit

/-! ## Layouts and virtual tables -/

def layoutOf (line : List ClassDecl) : Table Name Storage :=
  Table.ofList ((line.flatMap (·.fields)).map Declaration.storage)

def slotOf (c : ClassDecl) (m : Method) : Slot :=
  ⟨m.name.val, c.name.val, m.returns.val.storage, m.formalStorages⟩

def slotsOf (line : List ClassDecl) : Table Name Slot :=
  Table.ofList (line.flatMap fun c => c.methods.map fun m => (m.name.val, slotOf c m))

/-- The layout and the virtual table of each class. -/
def lowerShapes (p : Program) : Logged Fault (List (Layout × Vtable)) :=
  let index := p.classIndex
  index.keys.mapM fun c => do
    let line ← lineage index c
    let layout := (layoutOf line).entries
    let slots := (slotsOf line).values
    Logged.note .trace ("class " ++ c ++ " has " ++ toString layout.length ++ " fields and " ++ toString slots.length
      ++ " virtual slots")
    return (⟨c, layout⟩, ⟨c, gcMapOf (layout.map (·.2)), slots⟩)

/-! ## Expressions and statements -/

/-- A lowering that takes temporaries: the state is the list of those in use. -/
abbrev Lower (α : Type) := StateT (List (Nat × Storage)) (Except Fault) α

def freshTemp (s : Storage) : Lower Nat := fun temps => .ok (temps.length, temps ++ [(temps.length, s)])

/-- Where a variable of a method with the given formals is. -/
def placeOf (formals : List Name) (x : Variable) : Except Fault Place := do
  let (_, home) ← x.marks
  match home with
  | .object => return .field x.name.val
  | .method => return if x.name.val ∈ formals then .formal x.name.val else .frame x.name.val

/-- A value of type `found` where `expected` is expected.  A pointer to another class needs a cast. -/
def coerce (found expected : Storage) (e : CExpr) : CExpr :=
  match found, expected with
  | .object c, .object d => if c = d then e else .cast expected e
  | _, _ => e

mutual

def lowerExpr (formals : List Name) : Expr → Lower CExpr
  | .literal _ n => return .int n
  | .bool _ b => return .int (if b then 1 else 0)
  | .self _ => return .self
  | .read _ x => return .read (← placeOf formals x)
  | .binary _ left op right => do
    let left ← lowerExpr formals left
    let right ← lowerExpr formals right
    return .binary left op right
  | .not _ e => return .not (← lowerExpr formals e)
  | .index _ array i => do
    let array ← lowerExpr formals array
    let i ← lowerExpr formals i
    return .index array i
  | .length _ array => return .length (← lowerExpr formals array)
  | .newArray _ n => return .newArray (← lowerExpr formals n)
  | .newObject _ c => return .newObject c.val
  | .call _ receiver method arguments resolution => do
    let r ← Resolution.ofMark method resolution
    let temp ← freshTemp (.object r.cls)
    let receiver ← lowerExpr formals receiver
    let arguments ← lowerArguments formals r.formals arguments
    return .call temp receiver method.val arguments

/-- The arguments for formals of the given types. -/
def lowerArguments (formals : List Name) : List Ty → List Expr → Lower (List CExpr)
  | ty :: tys, e :: es => do
    let found ← e.markedType
    let value ← lowerExpr formals e
    let values ← lowerArguments formals tys es
    return coerce found.storage ty.storage value :: values
  | _, _ => return []

end

mutual

def lowerStmt (formals : List Name) : Stmt → Lower CStmt
  | .block body => return .block (← lowerStmts formals body)
  | .ite condition yes no => do
    let condition ← lowerExpr formals condition
    let yes ← lowerStmt formals yes
    let no ← lowerStmt formals no
    return .ite condition yes no
  | .loop condition body => do
    let condition ← lowerExpr formals condition
    let body ← lowerStmt formals body
    return .loop condition body
  | .print e => return .print (← lowerExpr formals e)
  | .assign x e => do
    let place ← placeOf formals x
    let e ← lowerExpr formals e
    return .assign place e
  | .store x i e => do
    let place ← placeOf formals x
    let i ← lowerExpr formals i
    let e ← lowerExpr formals e
    return .store place i e

def lowerStmts (formals : List Name) : List Stmt → Lower (List CStmt)
  | [] => return []
  | s :: ss => do
    let s ← lowerStmt formals s
    let ss ← lowerStmts formals ss
    return s :: ss

end

/-! ## Programs -/

/-- The body and the result of a method, which may have to be cast. -/
def lowerBody (m : Method) : Lower (List CStmt × CExpr) := do
  let formals := m.formals.map (·.name.val)
  let body ← lowerStmts formals m.body
  let found ← m.result.markedType
  let result ← lowerExpr formals m.result
  return (body, coerce found.storage m.returns.val.storage result)

def lowerMethod (c : Name) (m : Method) : Except Fault Function := do
  let ((body, result), temps) ← lowerBody m []
  return {
    cls := c
    name := m.name.val
    returns := m.returns.val.storage
    formals := m.formals.map Declaration.storage
    locals := m.locals.map Declaration.storage
    temps
    argumentsMap := gcMapOf (.object c :: m.formalStorages)
    localsMap := gcMapOf (m.locals.map (·.ty.val.storage))
    body
    result }

def lowerClass (c : ClassDecl) : Logged Fault (List Function) := do
  Logged.note .debug ("translating class " ++ c.name.val ++ " to C")
  Logged.ofExcept (c.methods.mapM (lowerMethod c.name.val))

def lowerMain (main : MainClass) : Logged Fault MainFunction := do
  Logged.note .debug ("translating main class " ++ main.name.val ++ " to C")
  let (body, temps) ← Logged.ofExcept (lowerStmt [] main.body [])
  return ⟨temps, body⟩

/-- The C unit of a program: shapes, then functions, then the main function. -/
def lowerProgram (p : Program) : Logged Fault CUnit := do
  let shapes ← lowerShapes p
  let functions ← p.classes.mapM lowerClass
  let main ← lowerMain p.main
  return ⟨shapes.map (·.1), shapes.map (·.2), functions.flatten, main⟩

end MiniJava.CUnit
