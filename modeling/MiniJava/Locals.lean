import MiniJava.ClassTable.Error
import MiniJava.Table
/-!
# The variables of a method

Formal parameters and local variables share one scope, in which each name is declared once.
-/
namespace MiniJava

abbrev Locals := Table Name Ty

namespace Locals

def declare (t : Locals) (d : Declaration) : Semantic Locals :=
  match t.putNew? d.name.val d.ty.val with
  | some t => .ok t
  | none => .error ⟨.duplicateVariable d.name.val, d.name.span⟩

/-- The formals, then the locals. -/
def ofDeclarations (formals locals : List Declaration) : Semantic Locals :=
  (formals ++ locals).foldlM declare Table.empty

protected def text (t : Locals) : String :=
  String.join (t.entries.map fun e => "  " ++ e.2.text ++ " " ++ e.1 ++ ";\n")

end Locals

end MiniJava
