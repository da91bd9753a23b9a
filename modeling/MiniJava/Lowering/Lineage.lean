import MiniJava.Lowering.Fault
import MiniJava.Table
/-!
# Lineages

The classes of a program by name, and the line of each class from its root ancestor down.  The program need not have
been checked: a line may break off or run in a circle.
-/
namespace MiniJava

/-- The classes of a program by name.  Of two classes with one name the later one counts, in the place of the first. -/
def Program.classIndex (p : Program) : Table Name ClassDecl := Table.ofList (p.classes.map fun c => (c.name.val, c))

/-- The line of `c` from its root ancestor down, of at most `n` classes. -/
def lineageWithin (index : Table Name ClassDecl) : Nat → Name → Except Fault (List ClassDecl)
  | n, c =>
    match index.get? c with
    | none => .error (.unknownClass c)
    | some decl =>
      match n with
      | 0 => .error (.inheritanceCycle c)
      | n + 1 =>
        match decl.parent with
        | none => .ok [decl]
        | some parent => do
          let line ← lineageWithin index n parent.val
          return line ++ [decl]

/-- The line of `c` from its root ancestor down.  A line longer than the index runs in a circle. -/
def lineage (index : Table Name ClassDecl) (c : Name) : Except Fault (List ClassDecl) :=
  lineageWithin index index.size c

end MiniJava
