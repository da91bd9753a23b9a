import MiniJava.ClassTable.OfProgram
import MiniJava.Locals
/-!
# Typing

Checks a program against a class table and marks it: expressions with their types, variables with their types and
homes, calls with the signatures that they were resolved to.  Marks that a tree already has are not read, only
replaced.  The first error ends the check.

Operands, conditions and assigned values must have the very type that is asked for; arguments and results may also be
objects of a descendant class.
-/
namespace MiniJava

/-- What a piece of a program is checked against: the classes, the class it stands in (none for the main class), and the
variables of its method. -/
structure Scope where
  classes : ClassTable
  current : Option Name
  locals : Locals

def Op.operandType : Op → Ty
  | add | sub | mul | less => .int
  | and => .boolean

def Op.resultType : Op → Ty
  | add | sub | mul => .int
  | less | and => .boolean

namespace Typing

/-- Asks for the very type `expected`. -/
def exactly (expected found : Ty) (span : Span) : Semantic Unit :=
  if found = expected then .ok () else .error ⟨.typeMismatch expected found, span⟩

/-- Asks for a type that can stand for `expected`. -/
def widening (t : ClassTable) (expected found : Ty) (span : Span) : Semantic Unit :=
  if t.compatible found expected then .ok () else .error ⟨.typeMismatch expected found, span⟩

/-- The class of an object. -/
def classOf (found : Ty) (span : Span) : Semantic Name :=
  match found with
  | .object c => .ok c
  | _ => .error ⟨.expectedObject found, span⟩

end Typing

open Typing

namespace Scope

/-! ## Names -/

def field? (sc : Scope) (x : Name) : Option Ty := sc.current.bind fun c => sc.classes.resolveField c x

/-- The type and the home of a variable: the method's if the method has one of that name, else the nearest field. -/
def lookup? (sc : Scope) (x : Name) : Option (Ty × Home) :=
  match sc.locals.get? x with
  | some ty => some (ty, .method)
  | none => (sc.field? x).map (·, .object)

def markVariable (sc : Scope) (x : Variable) : Semantic (Variable × Ty) :=
  match sc.lookup? x.name.val with
  | some (ty, home) => .ok (⟨x.name, some ty, some home⟩, ty)
  | none => .error ⟨.unresolvedName x.name.val, x.name.span⟩

def methodOf (sc : Scope) (c : Name) (m : Located Name) : Semantic Signature :=
  match sc.classes.resolveMethod c m.val with
  | some signature => .ok signature
  | none => .error ⟨.unresolvedName m.val, m.span⟩

/-! ## Expressions -/

mutual

/-- An expression with its marks, and its type. -/
def markExpr (sc : Scope) : Expr → Semantic (Expr × Ty)
  | .literal m n => .ok (.literal ⟨m.span, some .int⟩ n, .int)
  | .bool m b => .ok (.bool ⟨m.span, some .boolean⟩ b, .boolean)
  | .self m =>
    match sc.current with
    | some c => .ok (.self ⟨m.span, some (.object c)⟩, .object c)
    | none => .error ⟨.staticThis, m.span⟩
  | .read m x => do
    let (x, ty) ← sc.markVariable x
    return (.read ⟨m.span, some ty⟩ x, ty)
  | .binary m left op right => do
    let (left, leftType) ← sc.markExpr left
    exactly op.operandType leftType left.span
    let (right, rightType) ← sc.markExpr right
    exactly op.operandType rightType right.span
    return (.binary ⟨m.span, some op.resultType⟩ left op right, op.resultType)
  | .not m e => do
    let (e, found) ← sc.markExpr e
    exactly .boolean found e.span
    return (.not ⟨m.span, some .boolean⟩ e, .boolean)
  | .index m array i => do
    let (array, arrayType) ← sc.markExpr array
    exactly .intArray arrayType array.span
    let (i, found) ← sc.markExpr i
    exactly .int found i.span
    return (.index ⟨m.span, some .int⟩ array i, .int)
  | .length m array => do
    let (array, found) ← sc.markExpr array
    exactly .intArray found array.span
    return (.length ⟨m.span, some .int⟩ array, .int)
  | .newArray m n => do
    let (n, found) ← sc.markExpr n
    exactly .int found n.span
    return (.newArray ⟨m.span, some .intArray⟩ n, .intArray)
  | .newObject m c =>
    if sc.classes.isType c.val then .ok (.newObject ⟨m.span, some (.object c.val)⟩ c, .object c.val)
    else .error ⟨.unresolvedName c.val, c.span⟩
  | .call m receiver method arguments _ => do
    let (receiver, found) ← sc.markExpr receiver
    let c ← classOf found receiver.span
    let signature ← sc.methodOf c method
    if signature.formals.length ≠ arguments.length then
      throw ⟨.arityMismatch method.val signature.formals.length arguments.length, m.span⟩
    let (arguments, types) ← sc.markArguments signature.formals arguments
    return (.call ⟨m.span, some signature.returns⟩ receiver method arguments
      (some ⟨c, types, signature.formals, signature.returns⟩), signature.returns)

/-- The arguments for the given formals with their marks, and their types. -/
def markArguments (sc : Scope) : List Ty → List Expr → Semantic (List Expr × List Ty)
  | formal :: formals, e :: es => do
    let (e, found) ← sc.markExpr e
    widening sc.classes formal found e.span
    let (es, types) ← sc.markArguments formals es
    return (e :: es, found :: types)
  | _, es => .ok (es, [])

end

/-- An expression with its marks, if it has the very type `expected`. -/
def markExact (sc : Scope) (expected : Ty) (e : Expr) : Semantic Expr := do
  let (e, found) ← sc.markExpr e
  exactly expected found e.span
  return e

/-! ## Statements -/

mutual

def markStmt (sc : Scope) : Stmt → Semantic Stmt
  | .block body => return .block (← sc.markStmts body)
  | .ite condition yes no => do
    let condition ← sc.markExact .boolean condition
    let yes ← sc.markStmt yes
    let no ← sc.markStmt no
    return .ite condition yes no
  | .loop condition body => do
    let condition ← sc.markExact .boolean condition
    let body ← sc.markStmt body
    return .loop condition body
  | .print e => return .print (← sc.markExact .int e)
  | .assign x e => do
    let (x, ty) ← sc.markVariable x
    let e ← sc.markExact ty e
    return .assign x e
  | .store x i e => do
    let (x, ty) ← sc.markVariable x
    exactly .intArray ty x.name.span
    let i ← sc.markExact .int i
    let e ← sc.markExact .int e
    return .store x i e

def markStmts (sc : Scope) : List Stmt → Semantic (List Stmt)
  | [] => .ok []
  | s :: ss => do
    let s ← sc.markStmt s
    let ss ← sc.markStmts ss
    return s :: ss

end

/-- The body and the result of a method. -/
def markBody (sc : Scope) (m : Method) : Semantic Method := do
  let body ← sc.markStmts m.body
  let (result, found) ← sc.markExpr m.result
  widening sc.classes m.returns.val found result.span
  return { m with body, result }

end Scope

/-! ## Programs -/

/-- The tables to report on the way. -/
structure Dump where
  classTable : Bool
  locals : Bool
  deriving DecidableEq, Repr

namespace ClassTable

/-- The variables of a method, whose locals must be of declared types.  Those of the formals are in the class table. -/
def localsOf (t : ClassTable) (m : Method) : Semantic Locals := do
  m.locals.forM fun d => t.checkDeclared d.ty
  Locals.ofDeclarations m.formals m.locals

def markMethod (t : ClassTable) (dump : Dump) (c : Name) (m : Method) : Logged (Located SemanticError) Method := do
  let locals ← t.localsOf m
  if dump.locals then
    Logged.note .info ("locals of " ++ c ++ "." ++ m.name.val ++ ":\n" ++ locals.text)
  Logged.ofExcept (Scope.markBody ⟨t, some c, locals⟩ m)

def markClass (t : ClassTable) (dump : Dump) (c : ClassDecl) : Logged (Located SemanticError) ClassDecl := do
  Logged.note .debug ("elaborating class " ++ c.name.val)
  let methods ← c.methods.mapM (t.markMethod dump c.name.val)
  return { c with methods }

/-- The scope of the main class: it has no `this` and no variables. -/
def mainScope (t : ClassTable) : Scope := ⟨t, none, .empty⟩

/-- Checks and marks a program against the table. -/
def markProgram (t : ClassTable) (dump : Dump) (p : Program) : Logged (Located SemanticError) Program := do
  Logged.note .debug ("elaborating main class " ++ p.main.name.val)
  let body ← t.mainScope.markStmt p.main.body
  let classes ← p.classes.mapM (t.markClass dump)
  return ⟨{ p.main with body }, classes⟩

end ClassTable

/-- A checked and marked program, with the classes that it was checked against. -/
structure Elaborated where
  program : Program
  classes : ClassTable

/-- Checks and marks a program against its own class table. -/
def Program.elaborate (p : Program) (dump : Dump) : Logged (Located SemanticError) Elaborated := do
  let classes ← p.classTable
  if dump.classTable then
    Logged.note .info ("class table:\n" ++ classes.text)
  let program ← classes.markProgram dump p
  return ⟨program, classes⟩

end MiniJava
