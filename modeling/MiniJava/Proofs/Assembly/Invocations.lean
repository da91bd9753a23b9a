import MiniJava.Proofs.Assembly.Gathering
/-!
# The calls in emitted code

Each call of the tree becomes one invocation, and no other is emitted.  The invocation names the method by the class, the
formals and the result that the call's mark holds (`Frame.lowerStmt_invocations`, `Frame.lowerBody_invocations`): what the
interfaces say of the method is what the class table said when the call was resolved.
-/
namespace MiniJava

open Assembly

/-! ## The calls in a tree -/

namespace Expr

mutual

/-- The calls in an expression in the order in which they are made, each with the name of the method. -/
def calls : Expr → List (Name × Resolution)
  | literal _ _ | bool _ _ | self _ | read _ _ | newObject _ _ => []
  | binary _ l _ r => calls l ++ calls r
  | not _ e | length _ e | newArray _ e => calls e
  | index _ a i => calls a ++ calls i
  | call _ r m es res => calls r ++ callsAll es ++ (res.map (m.val, ·)).toList

def callsAll : List Expr → List (Name × Resolution)
  | [] => []
  | e :: es => calls e ++ callsAll es

end

end Expr

namespace Stmt

mutual

/-- The calls in a statement in the order of the code, in which the branch for a false condition comes first. -/
def calls : Stmt → List (Name × Resolution)
  | block body => callsAll body
  | ite c yes no => c.calls ++ calls no ++ calls yes
  | loop c body => c.calls ++ calls body
  | print e | assign _ e => e.calls
  | store _ i e => i.calls ++ e.calls

def callsAll : List Stmt → List (Name × Resolution)
  | [] => []
  | s :: ss => calls s ++ callsAll ss

end

end Stmt

def Method.calls (m : Method) : List (Name × Resolution) := Stmt.callsAll m.body ++ m.result.calls

/-- A call is gathered as it stands. -/
def Gather.calls : Gather (Name × Resolution) := ⟨fun _ => [], fun m res => [(m, res)]⟩

namespace Expr

mutual

theorem gather_calls : ∀ e : Expr, e.gather .calls = e.calls
  | literal _ _ | bool _ _ | self _ | newObject _ _ | read _ _ => rfl
  | binary _ l _ r | index _ l r => by rw [gather, calls, gather_calls l, gather_calls r]
  | not _ e | length _ e | newArray _ e => gather_calls e
  | call _ r m es res => by
    rw [gather, calls, gather_calls r, gatherAll_calls es]
    cases res <;> rfl

theorem gatherAll_calls : ∀ es : List Expr, gatherAll .calls es = callsAll es
  | [] => rfl
  | e :: es => by rw [gatherAll, callsAll, gather_calls e, gatherAll_calls es]

end

end Expr

namespace Stmt

mutual

theorem gather_calls : ∀ s : Stmt, s.gather .calls = s.calls
  | block body => gatherAll_calls body
  | ite c yes no => by rw [gather, calls, c.gather_calls, gather_calls no, gather_calls yes]
  | loop c body => by rw [gather, calls, c.gather_calls, gather_calls body]
  | print e => e.gather_calls
  | assign _ e => (List.append_nil _).trans e.gather_calls
  | store _ i e => by
    rw [gather, calls, i.gather_calls, e.gather_calls]
    rfl

theorem gatherAll_calls : ∀ ss : List Stmt, gatherAll .calls ss = callsAll ss
  | [] => rfl
  | s :: ss => by rw [gatherAll, callsAll, gather_calls s, gatherAll_calls ss]

end

end Stmt

namespace Assembly

/-! ## The invocations in code -/

def Instr.invoked? : Instr → Option MethodRef
  | invokevirtual ref => some ref
  | _ => none

def invocations (code : List Instr) : List MethodRef := code.filterMap Instr.invoked?

/-- The code invokes what the calls were resolved to, in order. -/
def Invokes (code : List Instr) (calls : List (Name × Resolution)) : Prop :=
  invocations code = calls.map fun c => c.2.methodRef c.1

namespace Frame

variable {f : Frame} {sc : Scope}

theorem Serves.picks_invoked (hf : f.Serves sc) :
    f.Picks sc .calls Instr.invoked? fun c => c.2.methodRef c.1 where
  plain := fun i hi => by cases i <;> first | rfl | cases hi
  locals := fun _ _ => rfl
  fields := fun _ _ => ⟨rfl, rfl⟩
  calls := fun c m sig tys ref hm href => by
    rw [hf.methods _ _ _ hm] at href
    cases href
    rfl

/-- **The code of a statement invokes what the statement's calls were resolved to.** -/
theorem lowerStmt_invocations (hf : f.Serves sc) {s : Stmt} {code : List Instr} {n n' : Nat} (hs : sc.MarkedStmt s)
    (h : f.lowerStmt s n = .ok (code, n')) : Invokes code s.calls :=
  s.gather_calls ▸ lowerStmt_gathers hf.picks_invoked hs h

/-- **The code of a method invokes what the method's calls were resolved to.** -/
theorem lowerBody_invocations {t : ClassTable} {c : Name} {m : Method} {code : List Instr} {n n' : Nat}
    (hf : f.Serves (m.scope t c)) (hm : m.MarkedIn t c) (h : f.lowerBody m n = .ok (code, n')) :
    Invokes code m.calls := by
  have hgather : m.gather .calls = m.calls := by
    rw [Method.gather, Method.calls, Stmt.gatherAll_calls, Expr.gather_calls]
  exact hgather ▸ lowerBody_gathers hf.picks_invoked hm h

end Frame

end Assembly

end MiniJava
