import MiniJava.ClassTable.Basic
import MiniJava.Log
/-!
# The class hierarchy

From each class a walk along the parents leads through its ancestors.  Members are found at the first class of the walk
that declares them.  A walk takes as many steps as there are classes and no more, so that it ends in every table, even
where the parents go round in a circle; `validate` looks for such circles, and for parents that are no types.
-/
namespace MiniJava.ClassTable

def parentOf (t : ClassTable) (c : Name) : Option Name := (t.get? c).bind (·.parent)

/-- The first `n` names of the walk from `c`, or all of them if they are fewer.  A walk ends at a class without a parent
or at a name that no class has. -/
def walk (t : ClassTable) : Nat → Name → List Name
  | 0, _ => []
  | n + 1, c =>
    c :: match t.parentOf c with
      | some parent => t.walk n parent
      | none => []

/-- `c` and its ancestors, the nearest first. -/
def ancestors (t : ClassTable) (c : Name) : List Name := t.walk (max t.size 1) c

def resolveField (t : ClassTable) (c f : Name) : Option Ty :=
  (t.ancestors c).findSome? fun a => (t.get? a).bind (·.fields.get? f)

def resolveMethod (t : ClassTable) (c m : Name) : Option Signature :=
  (t.ancestors c).findSome? fun a => (t.get? a).bind (·.methods.get? m)

/-- Whether a value of type `actual` can stand where `expected` is expected: an object of a class stands for one of any
ancestor, and any other type for itself. -/
def compatible (t : ClassTable) (actual expected : Ty) : Bool :=
  match actual, expected with
  | .object c, .object d => (t.ancestors c).contains d
  | _, _ => actual = expected

/-! ## Validation -/

/-- Whether the walk from `c` meets `target`, or goes on for more than `n` names. -/
def meetsOrExceeds (t : ClassTable) (target : Name) : Nat → Name → Bool
  | 0, _ => true
  | n + 1, c =>
    c = target || match t.parentOf c with
      | some parent => t.meetsOrExceeds target n parent
      | none => false

/-- Checks the parent of a class, which the program names at `clause`.  A walk longer than the table repeats itself. -/
def checkParent (t : ClassTable) (c parent : Name) (clause : Located Name) : Semantic Unit :=
  if !t.isType parent then .error ⟨.unresolvedName clause.val, clause.span⟩
  else if t.meetsOrExceeds c (t.size + 1) parent then .error ⟨.inheritanceCycle c, clause.span⟩
  else .ok ()

/-- Checks the parents of all classes in order, but for those whose clause `locate` does not know. -/
def validate (t : ClassTable) (locate : Name → Option (Located Name)) : Logged (Located SemanticError) Unit := do
  Logged.ofExcept <| t.classes.entries.forM fun e =>
    match e.2.parent, locate e.1 with
    | some parent, some clause => t.checkParent e.1 parent clause
    | _, _ => .ok ()
  Logged.note .trace ("class hierarchy of " ++ toString t.size ++ " classes is acyclic")

end MiniJava.ClassTable
