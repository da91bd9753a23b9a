import MiniJava.CUnit.Lower
import MiniJava.Proofs.Assembly.Emission
/-!
# Lowering never fails after elaboration

The lowering to C asks less of a tree than the one to the stack machine: that every variable, every argument, every call
and the result of every method bear a mark, and that the line of every class runs to its root.  A sound program meets
both lowerings' demands (`lowering_succeeds_of_elaborate`).
-/
namespace MiniJava

namespace CUnit

variable {sc : Scope} (formals : List Name)

theorem placeOf_total {x : Variable} {ty : Ty} {home : Home} (h : sc.MarkedVariable x ty home) :
    ∃ place, placeOf formals x = .ok place := by
  obtain ⟨-⟩ := h
  cases home <;> exact ⟨_, rfl⟩

theorem markedType_eq_ok {e : Expr} {ty : Ty} (h : sc.Marked e ty) : e.markedType = .ok ty := by
  rw [Expr.markedType, h.ty]

theorem freshTemp_eq_ok {s : Storage} {temps : List (Nat × Storage)} :
    freshTemp s temps = .ok (temps.length, temps ++ [(temps.length, s)]) := rfl

mutual

theorem lowerExpr_total : ∀ {e : Expr} {ty : Ty}, sc.Marked e ty → ∀ temps, ∃ code temps',
    lowerExpr formals e temps = .ok (code, temps')
  | .literal _ _, _, _, temps | .bool _ _, _, _, temps | .self _, _, _, temps | .newObject _ _, _, _, temps => by
    simp only [lowerExpr, state_pure_eq_ok]
    exact ⟨_, _, rfl, rfl⟩
  | .read _ x, _, .read hx, temps => by
    obtain ⟨place, hp⟩ := placeOf_total formals hx
    simp only [lowerExpr, state_bind_eq_ok, state_lift_eq_ok, state_pure_eq_ok]
    exact ⟨_, _, place, temps, ⟨hp, rfl⟩, rfl, rfl⟩
  | .binary _ l op r, _, .binary hl hr, temps => by
    obtain ⟨cl, temps₁, hl⟩ := lowerExpr_total hl temps
    obtain ⟨cr, temps₂, hr⟩ := lowerExpr_total hr temps₁
    simp only [lowerExpr, state_bind_eq_ok, state_pure_eq_ok]
    exact ⟨_, _, cl, temps₁, hl, cr, temps₂, hr, rfl, rfl⟩
  | .not _ e, _, .not he, temps | .length _ e, _, .length he, temps | .newArray _ e, _, .newArray he, temps => by
    obtain ⟨ce, temps₁, he⟩ := lowerExpr_total he temps
    simp only [lowerExpr, state_bind_eq_ok, state_pure_eq_ok]
    exact ⟨_, _, ce, temps₁, he, rfl, rfl⟩
  | .index _ a i, _, .index ha hi, temps => by
    obtain ⟨ca, temps₁, ha⟩ := lowerExpr_total ha temps
    obtain ⟨ci, temps₂, hi⟩ := lowerExpr_total hi temps₁
    simp only [lowerExpr, state_bind_eq_ok, state_pure_eq_ok]
    exact ⟨_, _, ca, temps₁, ha, ci, temps₂, hi, rfl, rfl⟩
  | .call _ r m es _, _, @Scope.Marked.call _ _ _ _ _ c sig _ hr _ hes _, temps => by
    obtain ⟨cr, temps₁, hr⟩ := lowerExpr_total hr (temps ++ [(temps.length, .object c)])
    obtain ⟨ces, temps₂, hes⟩ := lowerArguments_total hes sig.formals temps₁
    simp only [lowerExpr, state_bind_eq_ok, state_pure_eq_ok, state_lift_eq_ok]
    exact ⟨_, _, _, temps, ⟨rfl, rfl⟩, _, _, freshTemp_eq_ok, cr, temps₁, hr, ces, temps₂, hes, rfl, rfl⟩

theorem lowerArguments_total : ∀ {es : List Expr} {tys : List Ty}, List.Forall₂ sc.Marked es tys →
    ∀ (expected : List Ty) temps, ∃ code temps', lowerArguments formals expected es temps = .ok (code, temps')
  | [], _, _, expected, temps => by
    cases expected <;> exact ⟨[], temps, state_pure_eq_ok.2 ⟨rfl, rfl⟩⟩
  | _ :: _, _, _, [], temps => ⟨[], temps, state_pure_eq_ok.2 ⟨rfl, rfl⟩⟩
  | e :: es, _, .cons he hes, ty :: expected, temps => by
    have hty := markedType_eq_ok he
    obtain ⟨ce, temps₁, he⟩ := lowerExpr_total he temps
    obtain ⟨ces, temps₂, hes⟩ := lowerArguments_total hes expected temps₁
    simp only [lowerArguments, state_bind_eq_ok, state_pure_eq_ok, state_lift_eq_ok]
    exact ⟨_, _, _, temps, ⟨hty, rfl⟩, ce, temps₁, he, ces, temps₂, hes, rfl, rfl⟩

end

mutual

theorem lowerStmt_total : ∀ {s : Stmt}, sc.MarkedStmt s → ∀ temps, ∃ code temps',
    lowerStmt formals s temps = .ok (code, temps')
  | .block body, .block hb, temps => by
    obtain ⟨cb, temps₁, hb⟩ := lowerStmts_total hb temps
    simp only [lowerStmt, state_bind_eq_ok, state_pure_eq_ok]
    exact ⟨_, _, cb, temps₁, hb, rfl, rfl⟩
  | .ite c yes no, .ite hc hy hn, temps => by
    obtain ⟨cc, temps₁, hc⟩ := lowerExpr_total formals hc temps
    obtain ⟨cy, temps₂, hy⟩ := lowerStmt_total hy temps₁
    obtain ⟨cn, temps₃, hn⟩ := lowerStmt_total hn temps₂
    simp only [lowerStmt, state_bind_eq_ok, state_pure_eq_ok]
    exact ⟨_, _, cc, temps₁, hc, cy, temps₂, hy, cn, temps₃, hn, rfl, rfl⟩
  | .loop c body, .loop hc hb, temps => by
    obtain ⟨cc, temps₁, hc⟩ := lowerExpr_total formals hc temps
    obtain ⟨cb, temps₂, hb⟩ := lowerStmt_total hb temps₁
    simp only [lowerStmt, state_bind_eq_ok, state_pure_eq_ok]
    exact ⟨_, _, cc, temps₁, hc, cb, temps₂, hb, rfl, rfl⟩
  | .print e, .print he, temps => by
    obtain ⟨ce, temps₁, he⟩ := lowerExpr_total formals he temps
    simp only [lowerStmt, state_bind_eq_ok, state_pure_eq_ok]
    exact ⟨_, _, ce, temps₁, he, rfl, rfl⟩
  | .assign x e, .assign hx he, temps => by
    obtain ⟨place, hp⟩ := placeOf_total formals hx
    obtain ⟨ce, temps₁, he⟩ := lowerExpr_total formals he temps
    simp only [lowerStmt, state_bind_eq_ok, state_pure_eq_ok, state_lift_eq_ok]
    exact ⟨_, _, place, temps, ⟨hp, rfl⟩, ce, temps₁, he, rfl, rfl⟩
  | .store x i e, .store hx hi he, temps => by
    obtain ⟨place, hp⟩ := placeOf_total formals hx
    obtain ⟨ci, temps₁, hi⟩ := lowerExpr_total formals hi temps
    obtain ⟨ce, temps₂, he⟩ := lowerExpr_total formals he temps₁
    simp only [lowerStmt, state_bind_eq_ok, state_pure_eq_ok, state_lift_eq_ok]
    exact ⟨_, _, place, temps, ⟨hp, rfl⟩, ci, temps₁, hi, ce, temps₂, he, rfl, rfl⟩

theorem lowerStmts_total : ∀ {ss : List Stmt}, (∀ s ∈ ss, sc.MarkedStmt s) → ∀ temps, ∃ code temps',
    lowerStmts formals ss temps = .ok (code, temps')
  | [], _, temps => ⟨[], temps, state_pure_eq_ok.2 ⟨rfl, rfl⟩⟩
  | s :: ss, h, temps => by
    obtain ⟨hs, hss⟩ := List.forall_mem_cons.1 h
    obtain ⟨cs, temps₁, hs⟩ := lowerStmt_total hs temps
    obtain ⟨css, temps₂, hss⟩ := lowerStmts_total hss temps₁
    simp only [lowerStmts, state_bind_eq_ok, state_pure_eq_ok]
    exact ⟨_, _, cs, temps₁, hs, css, temps₂, hss, rfl, rfl⟩

end

variable {t : ClassTable}

theorem lowerMethod_total {c : Name} {m : Method} (hm : m.MarkedIn t c) : ∃ f, lowerMethod c m = .ok f := by
  obtain ⟨ty, hr, -⟩ := hm.result
  have hty := markedType_eq_ok hr
  obtain ⟨body, temps₁, hb⟩ := lowerStmts_total (m.formals.map (·.name.val)) hm.body []
  obtain ⟨result, temps₂, hr⟩ := lowerExpr_total (m.formals.map (·.name.val)) hr temps₁
  have hbody : lowerBody m [] = .ok ((body, coerce ty.storage m.returns.val.storage result), temps₂) := by
    simp only [lowerBody, state_bind_eq_ok, state_pure_eq_ok, state_lift_eq_ok]
    exact ⟨body, temps₁, hb, ty, temps₁, ⟨hty, rfl⟩, result, temps₂, hr, rfl, rfl⟩
  exact ⟨_, bind_eq_ok.2 ⟨_, hbody, rfl⟩⟩

theorem lowerClass_total {c : ClassDecl} (hc : ∀ m ∈ c.methods, m.MarkedIn t c.name.val) :
    ∃ fs, (lowerClass c).result = .ok fs := by
  obtain ⟨fs, hfs⟩ := exists_mapM_eq_ok (f := lowerMethod c.name.val) fun m hm => lowerMethod_total (hc m hm)
  simp only [lowerClass, Logged.result_bind, Logged.result_note, Logged.result_ofExcept, bind_eq_ok]
  exact ⟨fs, (), trivial, hfs⟩

theorem lowerMain_total {main : MainClass} (hm : t.mainScope.MarkedStmt main.body) :
    ∃ f, (lowerMain main).result = .ok f := by
  obtain ⟨body, temps, hb⟩ := lowerStmt_total [] hm []
  simp only [lowerMain, Logged.result_bind, Logged.result_note, Logged.result_ofExcept, Logged.result_pure, bind_eq_ok]
  exact ⟨_, (), trivial, _, hb, rfl⟩

theorem lowerShapes_total {p : Program} (h : p.Declarations t) : ∃ shapes, (lowerShapes p).result = .ok shapes := by
  simp only [lowerShapes, Logged.result_mapM, Logged.result_bind, Logged.result_liftM, Logged.result_note,
    Logged.result_pure]
  refine exists_mapM_eq_ok fun c hc => ?_
  obtain ⟨d, hd⟩ := Table.mem_keys_iff.1 hc
  obtain ⟨hmem, rfl⟩ := h.classIndex_eq_some_iff.1 hd
  obtain ⟨line, hline, -⟩ := h.lineage_eq_ok hmem
  simp only [bind_eq_ok]
  exact ⟨_, line, hline, (), trivial, rfl⟩

/-- **A sound program has a C unit.** -/
theorem lowerProgram_total {e : Elaborated} (h : e.Sound) : ∃ u, (lowerProgram e.program).result = .ok u := by
  obtain ⟨shapes, hs⟩ := lowerShapes_total h.declarations
  obtain ⟨functions, hf⟩ := exists_mapM_eq_ok (f := fun c => (lowerClass c).result)
    fun c hc => lowerClass_total (h.marked.methods c hc)
  obtain ⟨main, hm⟩ := lowerMain_total h.marked.main
  simp only [lowerProgram, Logged.result_bind, Logged.result_pure, Logged.result_mapM, bind_eq_ok]
  exact ⟨_, shapes, hs, functions, hf, main, hm, rfl⟩

end CUnit

/-- **Lowering an elaborated program never fails.**  Whatever the program and whatever marks it came with, once it has
been elaborated there are listings and a C unit for it: no label is missing or defined twice, no mark is missing, no
class, method or slot is unknown, and no line of classes runs in a circle. -/
theorem lowering_succeeds_of_elaborate (p : Program) (dump : Dump) (e : Elaborated)
    (h : (p.elaborate dump).result = .ok e) :
    (∃ ls, (Assembly.lowerProgram e.program).result = .ok ls) ∧ ∃ u, (CUnit.lowerProgram e.program).result = .ok u := by
  obtain ⟨hsound, -⟩ := elaborate_sound h
  exact ⟨Assembly.lowerProgram_total hsound, CUnit.lowerProgram_total hsound⟩

theorem lowering_succeeds_on_sample : ∃ e, (Sample.program.elaborate ⟨true, true⟩).result = .ok e ∧
    (∃ ls, (Assembly.lowerProgram e.program).result = .ok ls) ∧ ∃ u, (CUnit.lowerProgram e.program).result = .ok u :=
  ⟨_, rfl, lowering_succeeds_of_elaborate Sample.program ⟨true, true⟩ _ rfl⟩

end MiniJava
