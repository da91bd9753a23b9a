import MiniJava.Assembly.Lower
import MiniJava.Proofs.Sequencing
import MiniJava.Proofs.Tree.Parts
/-!
# The code of the parts

The code of an expression stands in that of every expression and every statement around it, in one piece
(`Frame.lowerExpr_parts`, `Frame.lowerStmt_parts`), and so in that of the method (`Frame.lowerBody_parts`).
-/
namespace MiniJava.Assembly

theorem infix_left {c d code : List Instr} (h : c ++ d <:+: code) : c <:+: code :=
  (List.prefix_append c d).isInfix.trans h

theorem infix_right {c d code : List Instr} (h : c ++ d <:+: code) : d <:+: code :=
  (List.suffix_append c d).isInfix.trans h

namespace Frame

variable {f : Frame}

/-- The code that the frame gives to an expression stands in `code`. -/
def Contains (f : Frame) (code : List Instr) (e : Expr) : Prop :=
  ∃ c n n', f.lowerExpr e n = .ok (c, n') ∧ c <:+: code

mutual

/-- **The code of an expression holds that of all its parts.** -/
theorem lowerExpr_parts {code : List Instr} : ∀ {e : Expr} {c : List Instr} {n n' : Nat},
    f.lowerExpr e n = .ok (c, n') → c <:+: code → ∀ p ∈ e.parts, f.Contains code p
  | .literal _ _, c, n, n', h, hc | .bool _ _, c, n, n', h, hc | .self _, c, n, n', h, hc | .read _ _, c, n, n', h, hc
  | .newObject _ _, c, n, n', h, hc => by
    simp only [Expr.parts, List.forall_mem_singleton]
    exact ⟨c, n, n', h, hc⟩
  | .binary _ l op r, c, n, n', h, hc => by
    simp only [Expr.parts, List.forall_mem_cons, List.forall_mem_append]
    refine ⟨⟨c, n, n', h, hc⟩, ?_⟩
    simp only [lowerExpr, state_bind_eq_ok, state_pure_eq_ok] at h
    obtain ⟨cl, _, hl, cr, _, hr, ca, _, -, rfl, -⟩ := h
    have hoperands := infix_left hc
    exact ⟨lowerExpr_parts hl (infix_left hoperands), lowerExpr_parts hr (infix_right hoperands)⟩
  | .not _ e, c, n, n', h, hc => by
    simp only [Expr.parts, List.forall_mem_cons]
    refine ⟨⟨c, n, n', h, hc⟩, ?_⟩
    simp only [lowerExpr, state_bind_eq_ok, state_pure_eq_ok] at h
    obtain ⟨_, _, -, _, _, -, ce, _, he, rfl, -⟩ := h
    exact lowerExpr_parts he (infix_left hc)
  | .index _ a i, c, n, n', h, hc => by
    simp only [Expr.parts, List.forall_mem_cons, List.forall_mem_append]
    refine ⟨⟨c, n, n', h, hc⟩, ?_⟩
    simp only [lowerExpr, state_bind_eq_ok, state_pure_eq_ok] at h
    obtain ⟨ca, _, ha, ci, _, hi, rfl, -⟩ := h
    have hoperands := infix_left hc
    exact ⟨lowerExpr_parts ha (infix_left hoperands), lowerExpr_parts hi (infix_right hoperands)⟩
  | .length _ e, c, n, n', h, hc | .newArray _ e, c, n, n', h, hc => by
    simp only [Expr.parts, List.forall_mem_cons]
    refine ⟨⟨c, n, n', h, hc⟩, ?_⟩
    simp only [lowerExpr, state_bind_eq_ok, state_pure_eq_ok] at h
    obtain ⟨ce, _, he, rfl, -⟩ := h
    exact lowerExpr_parts he (infix_left hc)
  | .call _ r m es _, c, n, n', h, hc => by
    simp only [Expr.parts, List.forall_mem_cons, List.forall_mem_append]
    refine ⟨⟨c, n, n', h, hc⟩, ?_⟩
    simp only [lowerExpr, state_bind_eq_ok, state_pure_eq_ok, state_lift_eq_ok] at h
    obtain ⟨_, _, -, _, _, -, cr, _, hr, ces, _, hes, rfl, -⟩ := h
    have hoperands := infix_left hc
    exact ⟨lowerExpr_parts hr (infix_left hoperands), lowerExprs_parts hes (infix_right hoperands)⟩

theorem lowerExprs_parts {code : List Instr} : ∀ {es : List Expr} {c : List Instr} {n n' : Nat},
    f.lowerExprs es n = .ok (c, n') → c <:+: code → ∀ p ∈ Expr.partsAll es, f.Contains code p
  | [], _, _, _, _, _ => fun _ h => (List.not_mem_nil h).elim
  | e :: es, _, _, _, h, hc => by
    simp only [lowerExprs, state_bind_eq_ok, state_pure_eq_ok] at h
    obtain ⟨ce, _, he, ces, _, hes, rfl, -⟩ := h
    simp only [Expr.partsAll, List.forall_mem_append]
    exact ⟨lowerExpr_parts he (infix_left hc), lowerExprs_parts hes (infix_right hc)⟩

end

mutual

theorem lowerStmt_parts {code : List Instr} : ∀ {s : Stmt} {c : List Instr} {n n' : Nat},
    f.lowerStmt s n = .ok (c, n') → c <:+: code → ∀ p ∈ s.expressions, f.Contains code p
  | .block body, _, _, _, h, hc => by
    rw [Stmt.expressions]
    rw [lowerStmt] at h
    exact lowerStmts_parts h hc
  | .ite c yes no, _, _, _, h, hc => by
    simp only [lowerStmt, state_bind_eq_ok, state_pure_eq_ok] at h
    obtain ⟨_, _, -, _, _, -, _, _, -, cc, _, hcc, cn, _, hn, cy, _, hy, rfl, -⟩ := h
    have hyes := infix_left hc
    have hno := infix_left (infix_left hyes)
    simp only [Stmt.expressions, List.forall_mem_append]
    exact ⟨⟨lowerExpr_parts hcc (infix_left (infix_left hno)), lowerStmt_parts hy (infix_right hyes)⟩,
      lowerStmt_parts hn (infix_right hno)⟩
  | .loop c body, _, _, _, h, hc => by
    simp only [lowerStmt, state_bind_eq_ok, state_pure_eq_ok] at h
    obtain ⟨test, _, -, done, _, -, cc, _, hcc, cb, _, hb, rfl, -⟩ := h
    have hbody := infix_left hc
    have hcondition : cc <:+: code := infix_right (c := [.label test]) (infix_left (infix_left hbody))
    simp only [Stmt.expressions, List.forall_mem_append]
    exact ⟨lowerExpr_parts hcc hcondition, lowerStmt_parts hb (infix_right hbody)⟩
  | .print e, _, _, _, h, hc => by
    simp only [lowerStmt, state_bind_eq_ok, state_pure_eq_ok] at h
    obtain ⟨ce, _, he, rfl, -⟩ := h
    rw [Stmt.expressions]
    exact lowerExpr_parts he (infix_left hc)
  | .assign x e, _, _, _, h, hc => by
    simp only [lowerStmt, state_bind_eq_ok, state_pure_eq_ok] at h
    obtain ⟨_, _, -, ce, _, he, rfl, -⟩ := h
    rw [Stmt.expressions]
    exact lowerExpr_parts he (infix_right (infix_left hc))
  | .store x i e, _, _, _, h, hc => by
    simp only [lowerStmt, state_bind_eq_ok, state_pure_eq_ok] at h
    obtain ⟨cx, _, -, ci, _, hi, ce, _, he, rfl, -⟩ := h
    have hvalue := infix_left hc
    simp only [Stmt.expressions, List.forall_mem_append]
    exact ⟨lowerExpr_parts hi (infix_right (infix_left hvalue)), lowerExpr_parts he (infix_right hvalue)⟩

theorem lowerStmts_parts {code : List Instr} : ∀ {ss : List Stmt} {c : List Instr} {n n' : Nat},
    f.lowerStmts ss n = .ok (c, n') → c <:+: code → ∀ p ∈ Stmt.expressionsAll ss, f.Contains code p
  | [], _, _, _, _, _ => fun _ h => (List.not_mem_nil h).elim
  | s :: ss, _, _, _, h, hc => by
    simp only [lowerStmts, state_bind_eq_ok, state_pure_eq_ok] at h
    obtain ⟨cs, _, hs, css, _, hss, rfl, -⟩ := h
    simp only [Stmt.expressionsAll, List.forall_mem_append]
    exact ⟨lowerStmt_parts hs (infix_left hc), lowerStmts_parts hss (infix_right hc)⟩

end

theorem lowerBody_parts {m : Method} {code : List Instr} {n n' : Nat} (h : f.lowerBody m n = .ok (code, n')) :
    ∀ p ∈ Stmt.expressionsAll m.body ++ m.result.parts, f.Contains code p := by
  simp only [lowerBody, state_bind_eq_ok, state_pure_eq_ok] at h
  obtain ⟨cb, _, hb, cr, _, hr, rfl, -⟩ := h
  have hall := infix_left (List.infix_refl (cb ++ cr ++ [if m.returns.val.isReference then .areturn else .ireturn]))
  exact List.forall_mem_append.2 ⟨lowerStmts_parts hb (infix_left hall), lowerExpr_parts hr (infix_right hall)⟩

end Frame

end MiniJava.Assembly
