import MiniJava.Lowering.Fault
/-!
# Labels

In well-formed code no label is defined twice and every jump has its label in the same code.
-/
namespace MiniJava.Assembly

def definitions (code : List Instr) : List Label := code.filterMap Instr.defines?

def targets (code : List Instr) : List Label := code.filterMap Instr.target?

/-- The first label that stands in `seen` or before itself. -/
def firstRepeated (seen : List Label) : List Label → Option Label
  | [] => none
  | l :: ls => if l ∈ seen then some l else firstRepeated (l :: seen) ls

/-- Checks the labels of `code`, which belongs to what `unit` names.  A label that is defined twice counts before a jump
that leads nowhere. -/
def checkLabels (unit : String) (code : List Instr) : Except Fault Unit :=
  match firstRepeated [] (definitions code) with
  | some l => .error (.duplicateLabel l unit)
  | none =>
    match (targets code).find? (· ∉ definitions code) with
    | some l => .error (.missingLabel l unit)
    | none => .ok ()

end MiniJava.Assembly
