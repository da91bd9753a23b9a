import MiniJava.Proofs.CUnit.Shapes
/-!
# The code of trees

Lowering to C as a relation, with a rule for each kind of node: a tree, the temporaries in use before it, its code, and the
temporaries in use after it.  What a lowering makes is related to the tree (`lowersExpr_of_lowerExpr`,
`lowersStmt_of_lowerStmt`), and so is a function to its method (`Defines.exists_parts`), so that what is said of code is
proved rule by rule and no proof after these opens the lowering.
-/
namespace MiniJava

def Method.formalNames (m : Method) : List Name := m.formals.map (·.name.val)

namespace CUnit

abbrev TempList := List (Nat × Storage)

theorem placeOf_method_eq_ok {formals : List Name} {x : Located Name} {ty : Ty} {place : Place} :
    placeOf formals ⟨x, some ty, some .method⟩ = .ok place ↔
      (if x.val ∈ formals then .formal x.val else .frame x.val) = place := pure_eq_ok

theorem placeOf_object_eq_ok {formals : List Name} {x : Located Name} {ty : Ty} {place : Place} :
    placeOf formals ⟨x, some ty, some .object⟩ = .ok place ↔ .field x.val = place := pure_eq_ok

section

variable (formals : List Name)

mutual

/-- **The code of an expression.**  A call takes its temporary before its receiver and its arguments take theirs. -/
inductive LowersExpr : Expr → TempList → CExpr → TempList → Prop
  | literal {m : Mark} {n : Nat} {ts : TempList} : LowersExpr (.literal m n) ts (.int n) ts
  | bool {m : Mark} {b : Bool} {ts : TempList} : LowersExpr (.bool m b) ts (.int (if b then 1 else 0)) ts
  | self {m : Mark} {ts : TempList} : LowersExpr (.self m) ts .self ts
  | read {m : Mark} {x : Variable} {place : Place} {ts : TempList} :
      placeOf formals x = .ok place → LowersExpr (.read m x) ts (.read place) ts
  | binary {m : Mark} {l r : Expr} {op : Op} {cl cr : CExpr} {ts ts₁ ts₂ : TempList} :
      LowersExpr l ts cl ts₁ → LowersExpr r ts₁ cr ts₂ → LowersExpr (.binary m l op r) ts (.binary cl op cr) ts₂
  | not {m : Mark} {e : Expr} {c : CExpr} {ts ts' : TempList} :
      LowersExpr e ts c ts' → LowersExpr (.not m e) ts (.not c) ts'
  | index {m : Mark} {a i : Expr} {ca ci : CExpr} {ts ts₁ ts₂ : TempList} :
      LowersExpr a ts ca ts₁ → LowersExpr i ts₁ ci ts₂ → LowersExpr (.index m a i) ts (.index ca ci) ts₂
  | length {m : Mark} {a : Expr} {c : CExpr} {ts ts' : TempList} :
      LowersExpr a ts c ts' → LowersExpr (.length m a) ts (.length c) ts'
  | newArray {m : Mark} {e : Expr} {c : CExpr} {ts ts' : TempList} :
      LowersExpr e ts c ts' → LowersExpr (.newArray m e) ts (.newArray c) ts'
  | newObject {m : Mark} {c : Located Name} {ts : TempList} : LowersExpr (.newObject m c) ts (.newObject c.val) ts
  | call {m : Mark} {r : Expr} {f : Located Name} {es : List Expr} {mark : Option Resolution} {res : Resolution}
      {cr : CExpr} {ces : List CExpr} {ts ts₁ ts₂ : TempList} :
      Resolution.ofMark f mark = .ok res → LowersExpr r (ts ++ [(ts.length, .object res.cls)]) cr ts₁ →
      LowersArguments res.formals es ts₁ ces ts₂ → LowersExpr (.call m r f es mark) ts (.call ts.length cr f.val ces) ts₂

/-- The code of arguments for formals of the given types, for as long as there are both. -/
inductive LowersArguments : List Ty → List Expr → TempList → List CExpr → TempList → Prop
  | noFormals {es : List Expr} {ts : TempList} : LowersArguments [] es ts [] ts
  | noArguments {tys : List Ty} {ts : TempList} : LowersArguments tys [] ts [] ts
  | cons {ty found : Ty} {tys : List Ty} {e : Expr} {es : List Expr} {c : CExpr} {cs : List CExpr}
      {ts ts₁ ts₂ : TempList} :
      e.markedType = .ok found → LowersExpr e ts c ts₁ → LowersArguments tys es ts₁ cs ts₂ →
      LowersArguments (ty :: tys) (e :: es) ts (coerce found.storage ty.storage c :: cs) ts₂

end

mutual

/-- **The code of a statement.** -/
inductive LowersStmt : Stmt → TempList → CStmt → TempList → Prop
  | block {b : List Stmt} {cs : List CStmt} {ts ts' : TempList} :
      LowersStmts b ts cs ts' → LowersStmt (.block b) ts (.block cs) ts'
  | ite {e : Expr} {yes no : Stmt} {c : CExpr} {cy cn : CStmt} {ts ts₁ ts₂ ts₃ : TempList} :
      LowersExpr formals e ts c ts₁ → LowersStmt yes ts₁ cy ts₂ → LowersStmt no ts₂ cn ts₃ →
      LowersStmt (.ite e yes no) ts (.ite c cy cn) ts₃
  | loop {e : Expr} {b : Stmt} {c : CExpr} {cb : CStmt} {ts ts₁ ts₂ : TempList} :
      LowersExpr formals e ts c ts₁ → LowersStmt b ts₁ cb ts₂ → LowersStmt (.loop e b) ts (.loop c cb) ts₂
  | print {e : Expr} {c : CExpr} {ts ts' : TempList} :
      LowersExpr formals e ts c ts' → LowersStmt (.print e) ts (.print c) ts'
  | assign {x : Variable} {place : Place} {e : Expr} {c : CExpr} {ts ts' : TempList} :
      placeOf formals x = .ok place → LowersExpr formals e ts c ts' → LowersStmt (.assign x e) ts (.assign place c) ts'
  | store {x : Variable} {place : Place} {i e : Expr} {ci c : CExpr} {ts ts₁ ts₂ : TempList} :
      placeOf formals x = .ok place → LowersExpr formals i ts ci ts₁ → LowersExpr formals e ts₁ c ts₂ →
      LowersStmt (.store x i e) ts (.store place ci c) ts₂

inductive LowersStmts : List Stmt → TempList → List CStmt → TempList → Prop
  | nil {ts : TempList} : LowersStmts [] ts [] ts
  | cons {s : Stmt} {ss : List Stmt} {c : CStmt} {cs : List CStmt} {ts ts₁ ts₂ : TempList} :
      LowersStmt s ts c ts₁ → LowersStmts ss ts₁ cs ts₂ → LowersStmts (s :: ss) ts (c :: cs) ts₂

end

end

variable {formals : List Name}

mutual

/-- **What lowering makes of an expression is its code.** -/
theorem lowersExpr_of_lowerExpr : ∀ {e : Expr} {ts ts' : TempList} {c : CExpr},
    lowerExpr formals e ts = .ok (c, ts') → LowersExpr formals e ts c ts'
  | .literal _ _, _, _, _, h => by
    simp only [lowerExpr, state_pure_eq_ok] at h
    obtain ⟨rfl, rfl⟩ := h
    exact .literal
  | .bool _ _, _, _, _, h => by
    simp only [lowerExpr, state_pure_eq_ok] at h
    obtain ⟨rfl, rfl⟩ := h
    exact .bool
  | .self _, _, _, _, h => by
    simp only [lowerExpr, state_pure_eq_ok] at h
    obtain ⟨rfl, rfl⟩ := h
    exact .self
  | .read _ _, _, _, _, h => by
    simp only [lowerExpr, state_bind_eq_ok, state_lift_eq_ok, state_pure_eq_ok] at h
    obtain ⟨_, _, ⟨hp, rfl⟩, rfl, rfl⟩ := h
    exact .read hp
  | .binary _ _ _ _, _, _, _, h => by
    simp only [lowerExpr, state_bind_eq_ok, state_pure_eq_ok] at h
    obtain ⟨_, _, hl, _, _, hr, rfl, rfl⟩ := h
    exact .binary (lowersExpr_of_lowerExpr hl) (lowersExpr_of_lowerExpr hr)
  | .not _ _, _, _, _, h => by
    simp only [lowerExpr, state_bind_eq_ok, state_pure_eq_ok] at h
    obtain ⟨_, _, he, rfl, rfl⟩ := h
    exact .not (lowersExpr_of_lowerExpr he)
  | .index _ _ _, _, _, _, h => by
    simp only [lowerExpr, state_bind_eq_ok, state_pure_eq_ok] at h
    obtain ⟨_, _, ha, _, _, hi, rfl, rfl⟩ := h
    exact .index (lowersExpr_of_lowerExpr ha) (lowersExpr_of_lowerExpr hi)
  | .length _ _, _, _, _, h => by
    simp only [lowerExpr, state_bind_eq_ok, state_pure_eq_ok] at h
    obtain ⟨_, _, ha, rfl, rfl⟩ := h
    exact .length (lowersExpr_of_lowerExpr ha)
  | .newArray _ _, _, _, _, h => by
    simp only [lowerExpr, state_bind_eq_ok, state_pure_eq_ok] at h
    obtain ⟨_, _, he, rfl, rfl⟩ := h
    exact .newArray (lowersExpr_of_lowerExpr he)
  | .newObject _ _, _, _, _, h => by
    simp only [lowerExpr, state_pure_eq_ok] at h
    obtain ⟨rfl, rfl⟩ := h
    exact .newObject
  | .call _ _ _ _ _, _, _, _, h => by
    simp only [lowerExpr, state_bind_eq_ok, state_lift_eq_ok, state_pure_eq_ok, freshTemp_eq_ok, Except.ok.injEq,
      Prod.mk.injEq] at h
    obtain ⟨_, _, ⟨hres, rfl⟩, _, _, ⟨rfl, rfl⟩, _, _, hr, _, _, hes, rfl, rfl⟩ := h
    exact .call hres (lowersExpr_of_lowerExpr hr) (lowersArguments_of_lowerArguments hes)

theorem lowersArguments_of_lowerArguments : ∀ {tys : List Ty} {es : List Expr} {ts ts' : TempList} {cs : List CExpr},
    lowerArguments formals tys es ts = .ok (cs, ts') → LowersArguments formals tys es ts cs ts'
  | [], _, _, _, _, h => by
    simp only [lowerArguments, state_pure_eq_ok] at h
    obtain ⟨rfl, rfl⟩ := h
    exact .noFormals
  | _ :: _, [], _, _, _, h => by
    simp only [lowerArguments, state_pure_eq_ok] at h
    obtain ⟨rfl, rfl⟩ := h
    exact .noArguments
  | _ :: _, _ :: _, _, _, _, h => by
    simp only [lowerArguments, state_bind_eq_ok, state_lift_eq_ok, state_pure_eq_ok] at h
    obtain ⟨_, _, ⟨hty, rfl⟩, _, _, he, _, _, hes, rfl, rfl⟩ := h
    exact .cons hty (lowersExpr_of_lowerExpr he) (lowersArguments_of_lowerArguments hes)

end

mutual

/-- **What lowering makes of a statement is its code.** -/
theorem lowersStmt_of_lowerStmt : ∀ {s : Stmt} {ts ts' : TempList} {c : CStmt},
    lowerStmt formals s ts = .ok (c, ts') → LowersStmt formals s ts c ts'
  | .block _, _, _, _, h => by
    simp only [lowerStmt, state_bind_eq_ok, state_pure_eq_ok] at h
    obtain ⟨_, _, hb, rfl, rfl⟩ := h
    exact .block (lowersStmts_of_lowerStmts hb)
  | .ite _ _ _, _, _, _, h => by
    simp only [lowerStmt, state_bind_eq_ok, state_pure_eq_ok] at h
    obtain ⟨_, _, he, _, _, hy, _, _, hn, rfl, rfl⟩ := h
    exact .ite (lowersExpr_of_lowerExpr he) (lowersStmt_of_lowerStmt hy) (lowersStmt_of_lowerStmt hn)
  | .loop _ _, _, _, _, h => by
    simp only [lowerStmt, state_bind_eq_ok, state_pure_eq_ok] at h
    obtain ⟨_, _, he, _, _, hb, rfl, rfl⟩ := h
    exact .loop (lowersExpr_of_lowerExpr he) (lowersStmt_of_lowerStmt hb)
  | .print _, _, _, _, h => by
    simp only [lowerStmt, state_bind_eq_ok, state_pure_eq_ok] at h
    obtain ⟨_, _, he, rfl, rfl⟩ := h
    exact .print (lowersExpr_of_lowerExpr he)
  | .assign _ _, _, _, _, h => by
    simp only [lowerStmt, state_bind_eq_ok, state_lift_eq_ok, state_pure_eq_ok] at h
    obtain ⟨_, _, ⟨hp, rfl⟩, _, _, he, rfl, rfl⟩ := h
    exact .assign hp (lowersExpr_of_lowerExpr he)
  | .store _ _ _, _, _, _, h => by
    simp only [lowerStmt, state_bind_eq_ok, state_lift_eq_ok, state_pure_eq_ok] at h
    obtain ⟨_, _, ⟨hp, rfl⟩, _, _, hi, _, _, he, rfl, rfl⟩ := h
    exact .store hp (lowersExpr_of_lowerExpr hi) (lowersExpr_of_lowerExpr he)

theorem lowersStmts_of_lowerStmts : ∀ {ss : List Stmt} {ts ts' : TempList} {cs : List CStmt},
    lowerStmts formals ss ts = .ok (cs, ts') → LowersStmts formals ss ts cs ts'
  | [], _, _, _, h => by
    simp only [lowerStmts, state_pure_eq_ok] at h
    obtain ⟨rfl, rfl⟩ := h
    exact .nil
  | _ :: _, _, _, _, h => by
    simp only [lowerStmts, state_bind_eq_ok, state_pure_eq_ok] at h
    obtain ⟨_, _, hc, _, _, hcs, rfl, rfl⟩ := h
    exact .cons (lowersStmt_of_lowerStmt hc) (lowersStmts_of_lowerStmts hcs)

end

/-- **The code of a function, taken apart**: the body's, and the result's as the type is that the function returns. -/
theorem Defines.exists_parts {c : Name} {m : Method} {f : Function} (h : Defines c m f) : ∃ temps found code,
    LowersStmts m.formalNames m.body [] f.body temps ∧ m.result.markedType = .ok found ∧
      LowersExpr m.formalNames m.result temps code f.temps ∧
      coerce found.storage m.returns.val.storage code = f.result := by
  have hc := h.code
  simp only [lowerBody, state_bind_eq_ok, state_lift_eq_ok, state_pure_eq_ok, Prod.mk.injEq] at hc
  obtain ⟨_, temps, hb, found, _, ⟨hfound, rfl⟩, code, _, hr, ⟨rfl, hresult⟩, rfl⟩ := hc
  exact ⟨temps, found, code, lowersStmts_of_lowerStmts hb, hfound, lowersExpr_of_lowerExpr hr, hresult⟩

end CUnit

end MiniJava
