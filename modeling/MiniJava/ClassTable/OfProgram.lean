import MiniJava.ClassTable.Hierarchy
/-!
# The class table of a program

All class names first, so that a class can refer to a later one; then the hierarchy is checked; then the members come
in, class by class.
-/
namespace MiniJava

/-- A declared type names a registered class if it names one. -/
def ClassTable.checkDeclared (t : ClassTable) (ty : Located Ty) : Semantic Unit :=
  match ty.val with
  | .object c => if t.isType c then .ok () else .error ⟨.unresolvedName c, ty.span⟩
  | _ => .ok ()

def Method.signature (m : Method) : Signature := ⟨m.returns.val, m.formals.map (·.ty.val)⟩

namespace Program

/-- The table of the program's classes, still without members. -/
def registered (p : Program) : Semantic ClassTable := do
  let t ← ClassTable.empty.registerMain p.main.name
  p.classes.foldlM (fun t c => t.register c.name (c.parent.map (·.val))) t

/-- Where the first class called `c` names its parent. -/
def parentClause (p : Program) (c : Name) : Option (Located Name) :=
  (p.classes.find? (·.name.val = c)).bind (·.parent)

end Program

namespace ClassTable

def declareField (t : ClassTable) (c : Name) (field : Declaration) : Semantic ClassTable := do
  t.checkDeclared field.ty
  t.addField c field

def declareMethod (t : ClassTable) (c : Name) (m : Method) : Semantic ClassTable := do
  t.checkDeclared m.returns
  m.formals.forM fun formal => t.checkDeclared formal.ty
  t.addMethod c m.name m.signature

def declareMembers (t : ClassTable) (c : ClassDecl) : Semantic ClassTable := do
  let t ← c.fields.foldlM (fun t field => t.declareField c.name.val field) t
  c.methods.foldlM (fun t m => t.declareMethod c.name.val m) t

end ClassTable

/-- The class table of a program, if its declarations are in order. -/
def Program.classTable (p : Program) : Logged (Located SemanticError) ClassTable := do
  let names ← p.registered
  names.validate p.parentClause
  let t ← Logged.ofExcept (p.classes.foldlM ClassTable.declareMembers names)
  Logged.note .debug ("class table built with " ++ toString (p.classes.length + 1) ++ " classes")
  return t

end MiniJava
