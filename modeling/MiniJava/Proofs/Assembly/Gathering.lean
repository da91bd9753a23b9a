import MiniJava.Proofs.Assembly.Emission
/-!
# What code refers to

Few instructions refer to a member of a class: those that read or write a field, and invocations.  Each comes from a use of
a variable or from a call.  What is picked from such instructions is therefore gathered from the tree, in the order of the
code (`Frame.lowerExpr_gathers`, `Frame.lowerStmt_gathers`), whatever it is that is picked (`Frame.Picks`).
-/
namespace MiniJava

open Assembly

/-! ## From a tree -/

/-- What is gathered from a tree: something at each use of a variable, and something at each call. -/
structure Gather (α : Type) where
  used : Variable → List α
  called : Name → Resolution → List α

variable {α β : Type}

namespace Expr

mutual

/-- What is gathered from an expression, operands and arguments from left to right before the call itself. -/
def gather (g : Gather α) : Expr → List α
  | literal _ _ | bool _ _ | self _ | newObject _ _ => []
  | read _ x => g.used x
  | binary _ l _ r => gather g l ++ gather g r
  | not _ e | length _ e | newArray _ e => gather g e
  | index _ a i => gather g a ++ gather g i
  | call _ r m es res => gather g r ++ gatherAll g es ++ res.elim [] (g.called m.val)

def gatherAll (g : Gather α) : List Expr → List α
  | [] => []
  | e :: es => gather g e ++ gatherAll g es

end

end Expr

namespace Stmt

mutual

/-- What is gathered from a statement, in the order of the code: the branch for a false condition comes first, and a
variable is written after its value has been made. -/
def gather (g : Gather α) : Stmt → List α
  | block body => gatherAll g body
  | ite c yes no => c.gather g ++ gather g no ++ gather g yes
  | loop c body => c.gather g ++ gather g body
  | print e => e.gather g
  | assign x e => e.gather g ++ g.used x
  | store x i e => g.used x ++ i.gather g ++ e.gather g

def gatherAll (g : Gather α) : List Stmt → List α
  | [] => []
  | s :: ss => gather g s ++ gatherAll g ss

end

end Stmt

def Method.gather (g : Gather α) (m : Method) : List α := Stmt.gatherAll g m.body ++ m.result.gather g

/-! ## From code -/

namespace Assembly

/-- Whether an instruction names a member of a class. -/
def Instr.refers : Instr → Bool
  | getfield _ _ _ | putfield _ _ _ | invokevirtual _ => true
  | _ => false

variable {pick : Instr → Option β} {g : Gather α} {conv : α → β}

namespace Frame

/-- **What is picked from the code of the frame is gathered from the tree**, as far as a single instruction goes. -/
structure Picks (f : Frame) (sc : Scope) (g : Gather α) (pick : Instr → Option β) (conv : α → β) : Prop where
  plain : ∀ i, i.refers = false → pick i = none
  locals : ∀ x ty, g.used ⟨x, some ty, some .method⟩ = []
  fields : ∀ x ty, [Instr.getfield f.cls x.val ty.storage].filterMap pick = (g.used ⟨x, some ty, some .object⟩).map conv ∧
    [Instr.putfield f.cls x.val ty.storage].filterMap pick = (g.used ⟨x, some ty, some .object⟩).map conv
  calls : ∀ c m sig tys ref, sc.classes.resolveMethod c m = some sig → methodRef f.interfaces c m = .ok ref →
    [Instr.invokevirtual ref].filterMap pick = (g.called m ⟨c, tys, sig.formals, sig.returns⟩).map conv

/-- The code has what is gathered. -/
def Yields (pick : Instr → Option β) (conv : α → β) (code : List Instr) (as : List α) : Prop :=
  code.filterMap pick = as.map conv

section

variable {code code' : List Instr} {as bs : List α}

theorem Yields.append (h : Yields pick conv code as) (h' : Yields pick conv code' bs) :
    Yields pick conv (code ++ code') (as ++ bs) := by
  rw [Yields, List.filterMap_append, h, h', List.map_append]

end

variable {f : Frame} {sc : Scope}

namespace Picks

variable {code : List Instr}

theorem nothing (hp : f.Picks sc g pick conv) (h : code.any Instr.refers = false) : code.filterMap pick = [] := by
  refine List.filterMap_eq_nil_iff.2 fun i hi => hp.plain i ?_
  rw [List.any_eq_false] at h
  exact Bool.eq_false_iff.2 (h i hi)

theorem yields_plain (hp : f.Picks sc g pick conv) (h : code.any Instr.refers = false) : Yields pick conv code [] :=
  hp.nothing h

theorem load (hp : f.Picks sc g pick conv) {x : Variable} {ty : Ty} {home : Home} {code : List Instr}
    (h : sc.MarkedVariable x ty home) (hc : f.load x = .ok code) : Yields pick conv code (g.used x) := by
  obtain ⟨-⟩ := h
  cases home with
  | method =>
    obtain ⟨n, -, rfl⟩ := load_method_eq_ok.1 hc
    rw [hp.locals]
    refine hp.yields_plain ?_
    cases ty <;> rfl
  | object =>
    cases load_object_eq_ok.1 hc
    have hplain : Yields pick conv [.aload 0] ([] : List α) := hp.yields_plain rfl
    exact hplain.append (hp.fields _ _).1

theorem store (hp : f.Picks sc g pick conv) {x : Variable} {ty : Ty} {home : Home} {before after : List Instr}
    (h : sc.MarkedVariable x ty home) (hc : f.store x = .ok (before, after)) :
    before.any Instr.refers = false ∧ Yields pick conv after (g.used x) := by
  obtain ⟨-⟩ := h
  cases home with
  | method =>
    obtain ⟨n, -, rfl, rfl⟩ := store_method_eq_ok.1 hc
    rw [hp.locals]
    refine ⟨rfl, hp.yields_plain ?_⟩
    cases ty <;> rfl
  | object =>
    obtain ⟨rfl, rfl⟩ := store_object_eq_ok.1 hc
    exact ⟨rfl, (hp.fields _ _).2⟩

end Picks

theorem Yields.append_plain {code code' : List Instr} {as : List α} (h : Yields pick conv code as)
    (hp : f.Picks sc g pick conv) (h' : code'.any Instr.refers = false) : Yields pick conv (code ++ code') as := by
  rw [Yields, List.filterMap_append, h, hp.nothing h', List.append_nil]

theorem applyOp_refers {op : Op} {code : List Instr} {n n' : Nat} (h : applyOp op n = .ok (code, n')) :
    code.any Instr.refers = false := by
  cases op <;> cases h <;> rfl

mutual

/-- **What is picked from the code of an expression is gathered from the expression.** -/
theorem lowerExpr_gathers (hp : f.Picks sc g pick conv) : ∀ {e : Expr} {ty : Ty} {code : List Instr} {n n' : Nat},
    sc.Marked e ty → f.lowerExpr e n = .ok (code, n') → Yields pick conv code (e.gather g)
  | .literal _ _, _, _, _, _, _, h | .bool _ _, _, _, _, _, _, h | .self _, _, _, _, _, _, h
  | .newObject _ _, _, _, _, _, _, h => by
    obtain ⟨rfl, -⟩ := state_pure_eq_ok.1 h
    exact hp.yields_plain rfl
  | .read _ x, _, _, _, _, .read hx, h => hp.load hx (state_lift_eq_ok.1 h).1
  | .binary _ l op r, _, _, _, _, .binary hl hr, h => by
    simp only [lowerExpr, state_bind_eq_ok, state_pure_eq_ok] at h
    obtain ⟨cl, _, hcl, cr, _, hcr, ca, _, hca, rfl, -⟩ := h
    exact ((lowerExpr_gathers hp hl hcl).append (lowerExpr_gathers hp hr hcr)).append_plain hp (applyOp_refers hca)
  | .not _ e, _, _, _, _, .not he, h => by
    simp only [lowerExpr, state_bind_eq_ok, state_pure_eq_ok] at h
    obtain ⟨_, _, -, _, _, -, ce, _, hce, rfl, -⟩ := h
    exact (lowerExpr_gathers hp he hce).append_plain hp rfl
  | .index _ a i, _, _, _, _, .index ha hi, h => by
    simp only [lowerExpr, state_bind_eq_ok, state_pure_eq_ok] at h
    obtain ⟨ca, _, hca, ci, _, hci, rfl, -⟩ := h
    exact ((lowerExpr_gathers hp ha hca).append (lowerExpr_gathers hp hi hci)).append_plain hp rfl
  | .length _ e, _, _, _, _, .length he, h | .newArray _ e, _, _, _, _, .newArray he, h => by
    simp only [lowerExpr, state_bind_eq_ok, state_pure_eq_ok] at h
    obtain ⟨ce, _, hce, rfl, -⟩ := h
    exact (lowerExpr_gathers hp he hce).append_plain hp rfl
  | .call _ r m es _, _, _, _, _, .call hr hm hes _, h => by
    simp only [lowerExpr, state_bind_eq_ok, state_pure_eq_ok, state_lift_eq_ok] at h
    obtain ⟨_, _, ⟨hres, -⟩, ref, _, ⟨href, -⟩, cr, _, hcr, ces, _, hces, rfl, -⟩ := h
    cases hres
    exact ((lowerExpr_gathers hp hr hcr).append (lowerExprs_gathers hp hes hces)).append (hp.calls _ _ _ _ _ hm href)

theorem lowerExprs_gathers (hp : f.Picks sc g pick conv) : ∀ {es : List Expr} {tys : List Ty} {code : List Instr}
    {n n' : Nat}, List.Forall₂ sc.Marked es tys → f.lowerExprs es n = .ok (code, n') →
    Yields pick conv code (Expr.gatherAll g es)
  | [], _, _, _, _, _, h => by
    obtain ⟨rfl, -⟩ := state_pure_eq_ok.1 h
    rfl
  | e :: es, _, _, _, _, .cons he hes, h => by
    simp only [lowerExprs, state_bind_eq_ok, state_pure_eq_ok] at h
    obtain ⟨ce, _, hce, ces, _, hces, rfl, -⟩ := h
    exact (lowerExpr_gathers hp he hce).append (lowerExprs_gathers hp hes hces)

end

mutual

/-- **What is picked from the code of a statement is gathered from the statement.** -/
theorem lowerStmt_gathers (hp : f.Picks sc g pick conv) : ∀ {s : Stmt} {code : List Instr} {n n' : Nat},
    sc.MarkedStmt s → f.lowerStmt s n = .ok (code, n') → Yields pick conv code (s.gather g)
  | .block body, _, _, _, .block hb, h => by
    rw [lowerStmt] at h
    exact lowerStmts_gathers hp hb h
  | .ite c yes no, _, _, _, .ite hc hy hn, h => by
    simp only [lowerStmt, state_bind_eq_ok, state_pure_eq_ok] at h
    obtain ⟨yesLabel, _, -, noLabel, _, -, done, _, -, cc, _, hcc, cn, _, hcn, cy, _, hcy, rfl, -⟩ := h
    have hbranch : [Instr.ifne yesLabel, .label noLabel].any Instr.refers = false := rfl
    have hjoin : [Instr.goto done, .label yesLabel].any Instr.refers = false := rfl
    have hcondition := (lowerExpr_gathers hp hc hcc).append_plain hp hbranch
    have hno := (hcondition.append (lowerStmt_gathers hp hn hcn)).append_plain hp hjoin
    exact (hno.append (lowerStmt_gathers hp hy hcy)).append_plain hp rfl
  | .loop c body, _, _, _, .loop hc hb, h => by
    simp only [lowerStmt, state_bind_eq_ok, state_pure_eq_ok] at h
    obtain ⟨test, _, -, done, _, -, cc, _, hcc, cb, _, hcb, rfl, -⟩ := h
    have htest : Yields pick conv [.label test] ([] : List α) := hp.yields_plain rfl
    have hexit : [Instr.ifeq done].any Instr.refers = false := rfl
    have hcondition := (htest.append (lowerExpr_gathers hp hc hcc)).append_plain hp hexit
    exact (hcondition.append (lowerStmt_gathers hp hb hcb)).append_plain hp rfl
  | .print e, _, _, _, .print he, h => by
    simp only [lowerStmt, state_bind_eq_ok, state_pure_eq_ok] at h
    obtain ⟨ce, _, hce, rfl, -⟩ := h
    exact (lowerExpr_gathers hp he hce).append_plain hp rfl
  | .assign x e, _, _, _, .assign hx he, h => by
    simp only [lowerStmt, state_bind_eq_ok, state_pure_eq_ok, state_lift_eq_ok] at h
    obtain ⟨⟨before, after⟩, _, ⟨hcx, -⟩, ce, _, hce, rfl, -⟩ := h
    obtain ⟨hbefore, hafter⟩ := hp.store hx hcx
    exact ((hp.yields_plain hbefore).append (lowerExpr_gathers hp he hce)).append hafter
  | .store x i e, _, _, _, .store hx hi he, h => by
    simp only [lowerStmt, state_bind_eq_ok, state_pure_eq_ok, state_lift_eq_ok] at h
    obtain ⟨cx, _, ⟨hcx, -⟩, ci, _, hci, ce, _, hce, rfl, -⟩ := h
    rw [loadArray_of_marked hx] at hcx
    have hindex := (hp.load hx hcx).append (lowerExpr_gathers hp hi hci)
    exact (hindex.append (lowerExpr_gathers hp he hce)).append_plain hp rfl

theorem lowerStmts_gathers (hp : f.Picks sc g pick conv) : ∀ {ss : List Stmt} {code : List Instr} {n n' : Nat},
    (∀ s ∈ ss, sc.MarkedStmt s) → f.lowerStmts ss n = .ok (code, n') → Yields pick conv code (Stmt.gatherAll g ss)
  | [], _, _, _, _, h => by
    obtain ⟨rfl, -⟩ := state_pure_eq_ok.1 h
    rfl
  | s :: ss, _, _, _, hss, h => by
    obtain ⟨hs, hss⟩ := List.forall_mem_cons.1 hss
    simp only [lowerStmts, state_bind_eq_ok, state_pure_eq_ok] at h
    obtain ⟨cs, _, hcs, css, _, hcss, rfl, -⟩ := h
    exact (lowerStmt_gathers hp hs hcs).append (lowerStmts_gathers hp hss hcss)

end

/-- **What is picked from the code of a method is gathered from the method.** -/
theorem lowerBody_gathers {t : ClassTable} {c : Name} {m : Method} {code : List Instr} {n n' : Nat}
    (hp : f.Picks (m.scope t c) g pick conv) (hm : m.MarkedIn t c) (h : f.lowerBody m n = .ok (code, n')) :
    Yields pick conv code (m.gather g) := by
  simp only [lowerBody, state_bind_eq_ok, state_pure_eq_ok] at h
  obtain ⟨cb, _, hcb, cr, _, hcr, rfl, -⟩ := h
  obtain ⟨ty, hr, -⟩ := hm.result
  refine ((lowerStmts_gathers hp hm.body hcb).append (lowerExpr_gathers hp hr hcr)).append_plain hp ?_
  cases m.returns.val.isReference <;> rfl

end Frame

end Assembly

end MiniJava
