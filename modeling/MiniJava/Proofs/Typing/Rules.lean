import Mathlib.Data.List.Forall2
import MiniJava.Typing
import MiniJava.Proofs.Tree.Parts
/-!
# Typing rules

What a well-typed program is, without a checker: the rules that give expressions their types (`HasType`), accept
statements (`Accepts`) and hold a method and a program together (`WellTypedIn`, `ClassTable.WellTyped`).  The rules do
not look at the marks of a tree.

`Marked` says of a tree that already bears marks that each of them is the one that the rules give.
-/
namespace MiniJava

namespace Scope

/-- **What a name stands for**: the method's variable if the method has one, otherwise the nearest field of the class
that the scope stands in. -/
inductive Finds (sc : Scope) (x : Name) : Ty → Home → Prop
  | method {ty : Ty} : sc.locals.get? x = some ty → Finds sc x ty .method
  | object {c : Name} {ty : Ty} :
      sc.locals.get? x = none → sc.current = some c → sc.classes.resolveField c x = some ty → Finds sc x ty .object

/-- **The type of an expression.**  Operands must have the very type that is asked for; only arguments may be objects of
a descendant class. -/
inductive HasType (sc : Scope) : Expr → Ty → Prop
  | literal {m : Mark} {n : Nat} : HasType sc (.literal m n) .int
  | bool {m : Mark} {b : Bool} : HasType sc (.bool m b) .boolean
  | self {m : Mark} {c : Name} : sc.current = some c → HasType sc (.self m) (.object c)
  | read {m : Mark} {x : Variable} {ty : Ty} {home : Home} :
      sc.Finds x.name.val ty home → HasType sc (.read m x) ty
  | arithmetic {m : Mark} {l r : Expr} {op : Op} : op = .add ∨ op = .sub ∨ op = .mul →
      HasType sc l .int → HasType sc r .int → HasType sc (.binary m l op r) .int
  | less {m : Mark} {l r : Expr} :
      HasType sc l .int → HasType sc r .int → HasType sc (.binary m l .less r) .boolean
  | and {m : Mark} {l r : Expr} :
      HasType sc l .boolean → HasType sc r .boolean → HasType sc (.binary m l .and r) .boolean
  | not {m : Mark} {e : Expr} : HasType sc e .boolean → HasType sc (.not m e) .boolean
  | index {m : Mark} {a i : Expr} : HasType sc a .intArray → HasType sc i .int → HasType sc (.index m a i) .int
  | length {m : Mark} {a : Expr} : HasType sc a .intArray → HasType sc (.length m a) .int
  | newArray {m : Mark} {n : Expr} : HasType sc n .int → HasType sc (.newArray m n) .intArray
  | newObject {m : Mark} {c : Located Name} :
      sc.classes.isType c.val = true → HasType sc (.newObject m c) (.object c.val)
  | call {m : Mark} {r : Expr} {f : Located Name} {es : List Expr} {res : Option Resolution} {c : Name}
      {sig : Signature} {tys : List Ty} :
      HasType sc r (.object c) → sc.classes.resolveMethod c f.val = some sig → List.Forall₂ (HasType sc) es tys →
      List.Forall₂ (fun ty formal => sc.classes.compatible ty formal = true) tys sig.formals →
      HasType sc (.call m r f es res) sig.returns

/-- **The statements that the rules accept.** -/
inductive Accepts (sc : Scope) : Stmt → Prop
  | block {body : List Stmt} : (∀ s ∈ body, Accepts sc s) → Accepts sc (.block body)
  | ite {c : Expr} {yes no : Stmt} :
      sc.HasType c .boolean → Accepts sc yes → Accepts sc no → Accepts sc (.ite c yes no)
  | loop {c : Expr} {body : Stmt} : sc.HasType c .boolean → Accepts sc body → Accepts sc (.loop c body)
  | print {e : Expr} : sc.HasType e .int → Accepts sc (.print e)
  | assign {x : Variable} {e : Expr} {ty : Ty} {home : Home} :
      sc.Finds x.name.val ty home → sc.HasType e ty → Accepts sc (.assign x e)
  | store {x : Variable} {i e : Expr} {home : Home} :
      sc.Finds x.name.val .intArray home → sc.HasType i .int → sc.HasType e .int → Accepts sc (.store x i e)

end Scope

/-! ## Methods and programs -/

/-- The formals, then the locals, each name with its type. -/
def Method.variables (m : Method) : List (Name × Ty) := (m.formals ++ m.locals).map fun d => (d.name.val, d.ty.val)

/-- What the body of a method of the class `c` is checked against. -/
def Method.scope (t : ClassTable) (c : Name) (m : Method) : Scope := ⟨t, some c, Table.ofList m.variables⟩

namespace ClassTable

/-- The types that a variable can be declared to have. -/
inductive Declares (t : ClassTable) : Ty → Prop
  | int : Declares t .int
  | boolean : Declares t .boolean
  | intArray : Declares t .intArray
  | object {c : Name} : t.isType c = true → Declares t (.object c)

end ClassTable

/-- **A well-typed method of the class `c`.** -/
structure Method.WellTypedIn (t : ClassTable) (c : Name) (m : Method) : Prop where
  declared : ∀ d ∈ m.locals, t.Declares d.ty.val
  distinct : ((m.formals ++ m.locals).map (·.name.val)).Nodup
  body : ∀ s ∈ m.body, (m.scope t c).Accepts s
  result : ∃ ty, (m.scope t c).HasType m.result ty ∧ t.compatible ty m.returns.val = true

/-- **A well-typed program.**  The body of the main class is typed without `this` and without variables. -/
structure ClassTable.WellTyped (t : ClassTable) (p : Program) : Prop where
  main : t.mainScope.Accepts p.main.body
  methods : ∀ c ∈ p.classes, ∀ m ∈ c.methods, m.WellTypedIn t c.name.val

/-! ## Marks -/

namespace Scope

/-- A variable whose marks say what its name stands for. -/
inductive MarkedVariable (sc : Scope) : Variable → Ty → Home → Prop
  | intro {x : Located Name} {ty : Ty} {home : Home} :
      sc.Finds x.val ty home → MarkedVariable sc ⟨x, some ty, some home⟩ ty home

/-- **An expression all of whose marks are those that the rules give**, and its type. -/
inductive Marked (sc : Scope) : Expr → Ty → Prop
  | literal {s : Span} {n : Nat} : Marked sc (.literal ⟨s, some .int⟩ n) .int
  | bool {s : Span} {b : Bool} : Marked sc (.bool ⟨s, some .boolean⟩ b) .boolean
  | self {s : Span} {c : Name} : sc.current = some c → Marked sc (.self ⟨s, some (.object c)⟩) (.object c)
  | read {s : Span} {x : Variable} {ty : Ty} {home : Home} :
      sc.MarkedVariable x ty home → Marked sc (.read ⟨s, some ty⟩ x) ty
  | binary {s : Span} {l r : Expr} {op : Op} : Marked sc l op.operandType → Marked sc r op.operandType →
      Marked sc (.binary ⟨s, some op.resultType⟩ l op r) op.resultType
  | not {s : Span} {e : Expr} : Marked sc e .boolean → Marked sc (.not ⟨s, some .boolean⟩ e) .boolean
  | index {s : Span} {a i : Expr} :
      Marked sc a .intArray → Marked sc i .int → Marked sc (.index ⟨s, some .int⟩ a i) .int
  | length {s : Span} {a : Expr} : Marked sc a .intArray → Marked sc (.length ⟨s, some .int⟩ a) .int
  | newArray {s : Span} {n : Expr} : Marked sc n .int → Marked sc (.newArray ⟨s, some .intArray⟩ n) .intArray
  | newObject {s : Span} {c : Located Name} : sc.classes.isType c.val = true →
      Marked sc (.newObject ⟨s, some (.object c.val)⟩ c) (.object c.val)
  | call {s : Span} {r : Expr} {f : Located Name} {es : List Expr} {c : Name} {sig : Signature} {tys : List Ty} :
      Marked sc r (.object c) → sc.classes.resolveMethod c f.val = some sig → List.Forall₂ (Marked sc) es tys →
      List.Forall₂ (fun ty formal => sc.classes.compatible ty formal = true) tys sig.formals →
      Marked sc (.call ⟨s, some sig.returns⟩ r f es (some ⟨c, tys, sig.formals, sig.returns⟩)) sig.returns

/-- **A statement all of whose marks are those that the rules give.** -/
inductive MarkedStmt (sc : Scope) : Stmt → Prop
  | block {body : List Stmt} : (∀ s ∈ body, MarkedStmt sc s) → MarkedStmt sc (.block body)
  | ite {c : Expr} {yes no : Stmt} :
      sc.Marked c .boolean → MarkedStmt sc yes → MarkedStmt sc no → MarkedStmt sc (.ite c yes no)
  | loop {c : Expr} {body : Stmt} : sc.Marked c .boolean → MarkedStmt sc body → MarkedStmt sc (.loop c body)
  | print {e : Expr} : sc.Marked e .int → MarkedStmt sc (.print e)
  | assign {x : Variable} {e : Expr} {ty : Ty} {home : Home} :
      sc.MarkedVariable x ty home → sc.Marked e ty → MarkedStmt sc (.assign x e)
  | store {x : Variable} {i e : Expr} {home : Home} :
      sc.MarkedVariable x .intArray home → sc.Marked i .int → sc.Marked e .int → MarkedStmt sc (.store x i e)

end Scope

/-- A method of the class `c` whose declarations are in order and all of whose marks are right. -/
structure Method.MarkedIn (t : ClassTable) (c : Name) (m : Method) : Prop where
  declared : ∀ d ∈ m.locals, t.Declares d.ty.val
  distinct : ((m.formals ++ m.locals).map (·.name.val)).Nodup
  body : ∀ s ∈ m.body, (m.scope t c).MarkedStmt s
  result : ∃ ty, (m.scope t c).Marked m.result ty ∧ t.compatible ty m.returns.val = true

structure ClassTable.MarkedProgram (t : ClassTable) (p : Program) : Prop where
  main : t.mainScope.MarkedStmt p.main.body
  methods : ∀ c ∈ p.classes, ∀ m ∈ c.methods, m.MarkedIn t c.name.val

/-! ## Marks, node by node -/

/-- **A node whose own marks are right**: its type is the one type that it has, a variable's marks say what its name stands
for, and a call's mark holds the receiver's class, the types of the arguments and the signature of the method. -/
structure Scope.RightlyMarked (sc : Scope) (e : Expr) : Prop where
  type : ∃ ty, e.ty = some ty ∧ ∀ ty', sc.HasType e ty' ↔ ty' = ty
  reads : ∀ m x, e = .read m x → ∃ ty home, sc.MarkedVariable x ty home
  calls : ∀ m r f es res, e = .call m r f es res → ∃ c sig tys, sc.HasType r (.object c) ∧
    sc.classes.resolveMethod c f.val = some sig ∧ List.Forall₂ sc.HasType es tys ∧
    res = some ⟨c, tys, sig.formals, sig.returns⟩

/-- Every expression in the program and every variable that it assigns to is marked right. -/
structure ClassTable.RightlyMarked (t : ClassTable) (p : Program) : Prop where
  main : ∀ e ∈ p.main.body.expressions, t.mainScope.RightlyMarked e
  mainTargets : ∀ x ∈ p.main.body.targets, ∃ ty home, t.mainScope.MarkedVariable x ty home
  methods : ∀ c ∈ p.classes, ∀ m ∈ c.methods,
    ∀ e ∈ Stmt.expressionsAll m.body ++ m.result.parts, (m.scope t c.name.val).RightlyMarked e
  targets : ∀ c ∈ p.classes, ∀ m ∈ c.methods,
    ∀ x ∈ Stmt.targetsAll m.body, ∃ ty home, (m.scope t c.name.val).MarkedVariable x ty home

end MiniJava
