import MiniJava.Proofs.Typing.Programs
/-!
# What a check depends on

A check replaces the marks of a tree and reads none of them, and of its table it uses only the answers.  Both are one
induction over the tree (`Scope.markExpr_unmark`): against tables that answer alike, a tree and the same tree without its
marks have the same check, with the same result, the same error and the same messages.
-/
namespace MiniJava

/-! ## Tables that answer alike -/

namespace ClassTable

/-- **To every question of a check the two tables have the same answer.** -/
structure AnswersLike (t u : ClassTable) : Prop where
  isType : ∀ c, t.isType c = u.isType c
  compatible : ∀ found expected, t.compatible found expected = u.compatible found expected
  resolveField : ∀ c x, t.resolveField c x = u.resolveField c x
  resolveMethod : ∀ c m, t.resolveMethod c m = u.resolveMethod c m

theorem AnswersLike.refl (t : ClassTable) : t.AnswersLike t :=
  ⟨fun _ => rfl, fun _ _ => rfl, fun _ _ => rfl, fun _ _ => rfl⟩

end ClassTable

namespace Scope

variable {t u : ClassTable} {current : Option Name} {locals : Locals}

theorem markVariable_unmark (h : t.AnswersLike u) (x : Variable) :
    markVariable ⟨t, current, locals⟩ x.unmark = markVariable ⟨u, current, locals⟩ x := by
  have hfield : field? ⟨t, current, locals⟩ x.name.val = field? ⟨u, current, locals⟩ x.name.val :=
    congrArg current.bind (funext fun c => h.resolveField c x.name.val)
  simp only [markVariable, lookup?, Variable.unmark, Variable.unmarked, hfield]

theorem methodOf_congr (h : t.AnswersLike u) (c : Name) (m : Located Name) :
    methodOf ⟨t, current, locals⟩ c m = methodOf ⟨u, current, locals⟩ c m := by
  simp only [methodOf, h.resolveMethod]

theorem length_unmarkAll (es : List Expr) : (Expr.unmarkAll es).length = es.length := by
  induction es with
  | nil => rfl
  | cons e es ih => rw [Expr.unmarkAll, List.length_cons, List.length_cons, ih]

theorem widening_congr (h : t.AnswersLike u) (expected found : Ty) (span : Span) :
    Typing.widening t expected found span = Typing.widening u expected found span := by
  simp only [Typing.widening, h.compatible]

mutual

/-- **A check of an expression reads no marks.** -/
theorem markExpr_unmark (h : t.AnswersLike u) : ∀ e : Expr,
    markExpr ⟨t, current, locals⟩ e.unmark = markExpr ⟨u, current, locals⟩ e
  | .literal m n => rfl
  | .bool m b => rfl
  | .self m => rfl
  | .read m x => by
    rw [Expr.unmark, markExpr, markExpr, markVariable_unmark h]
    rfl
  | .binary m l op r => by
    rw [Expr.unmark, markExpr, markExpr, markExpr_unmark h l, markExpr_unmark h r]
    rfl
  | .not m e => by
    rw [Expr.unmark, markExpr, markExpr, markExpr_unmark h e]
    rfl
  | .index m a i => by
    rw [Expr.unmark, markExpr, markExpr, markExpr_unmark h a, markExpr_unmark h i]
    rfl
  | .length m a => by
    rw [Expr.unmark, markExpr, markExpr, markExpr_unmark h a]
    rfl
  | .newArray m n => by
    rw [Expr.unmark, markExpr, markExpr, markExpr_unmark h n]
    rfl
  | .newObject m c => by
    rw [Expr.unmark, markExpr, markExpr, h.isType]
    rfl
  | .call m r f es res => by
    simp only [Expr.unmark, markExpr, markExpr_unmark h r, methodOf_congr h, length_unmarkAll]
    refine bind_congr fun receiver => bind_congr fun c => bind_congr fun sig => ?_
    split
    · rfl
    · rename_i hlen
      rw [markArguments_unmark h es (not_not.1 hlen)]
      rfl

theorem markArguments_unmark (h : t.AnswersLike u) : ∀ (es : List Expr) {formals : List Ty},
    formals.length = es.length →
      markArguments ⟨t, current, locals⟩ formals (Expr.unmarkAll es) = markArguments ⟨u, current, locals⟩ formals es
  | [], [], _ => rfl
  | e :: es, formal :: formals, hlen => by
    simp only [Expr.unmarkAll, markArguments, markExpr_unmark h e, widening_congr h,
      markArguments_unmark h es (Nat.succ.inj hlen)]

end

theorem markExact_unmark (h : t.AnswersLike u) (expected : Ty) (e : Expr) :
    markExact ⟨t, current, locals⟩ expected e.unmark = markExact ⟨u, current, locals⟩ expected e := by
  rw [markExact, markExact, markExpr_unmark h]

mutual

/-- **Nor does that of a statement.** -/
theorem markStmt_unmark (h : t.AnswersLike u) : ∀ s : Stmt,
    markStmt ⟨t, current, locals⟩ s.unmark = markStmt ⟨u, current, locals⟩ s
  | .block body => by rw [Stmt.unmark, markStmt, markStmt, markStmts_unmark h body]
  | .ite c yes no => by
    rw [Stmt.unmark, markStmt, markStmt, markExact_unmark h, markStmt_unmark h yes, markStmt_unmark h no]
  | .loop c body => by rw [Stmt.unmark, markStmt, markStmt, markExact_unmark h, markStmt_unmark h body]
  | .print e => by rw [Stmt.unmark, markStmt, markStmt, markExact_unmark h]
  | .assign x e => by
    simp only [Stmt.unmark, markStmt, markVariable_unmark h, markExact_unmark h]
  | .store x i e => by
    simp only [Stmt.unmark, markStmt, markVariable_unmark h, markExact_unmark h]

theorem markStmts_unmark (h : t.AnswersLike u) : ∀ ss : List Stmt,
    markStmts ⟨t, current, locals⟩ (Stmt.unmarkAll ss) = markStmts ⟨u, current, locals⟩ ss
  | [] => rfl
  | s :: ss => by rw [Stmt.unmarkAll, markStmts, markStmts, markStmt_unmark h s, markStmts_unmark h ss]

end

theorem markBody_unmark (h : t.AnswersLike u) (m : Method) :
    markBody ⟨t, current, locals⟩ m.unmark = markBody ⟨u, current, locals⟩ m := by
  simp only [markBody, Method.unmark, markStmts_unmark h, markExpr_unmark h, widening_congr h]

end Scope

namespace ClassTable

variable {t u : ClassTable} {dump : Dump}

theorem localsOf_unmark (h : t.AnswersLike u) (m : Method) : t.localsOf m.unmark = u.localsOf m := by
  have hdeclared : t.checkDeclared = u.checkDeclared := funext fun ty => by simp only [checkDeclared, h.isType]
  rw [localsOf, localsOf, hdeclared]
  rfl

theorem markMethod_unmark (h : t.AnswersLike u) (c : Name) (m : Method) :
    t.markMethod dump c m.unmark = u.markMethod dump c m := by
  simp only [markMethod, localsOf_unmark h, Scope.markBody_unmark h]
  rfl

theorem markClass_unmark (h : t.AnswersLike u) (c : ClassDecl) : t.markClass dump c.unmark = u.markClass dump c := by
  have hmethods : t.markMethod dump c.name.val ∘ Method.unmark = u.markMethod dump c.name.val :=
    funext (markMethod_unmark h c.name.val)
  simp only [markClass, ClassDecl.unmark, List.mapM_map, hmethods]

/-- **A check reads no marks, and nothing of its table but the answers.** -/
theorem markProgram_unmark (h : t.AnswersLike u) (p : Program) :
    t.markProgram dump p.unmark = u.markProgram dump p := by
  have hclasses : t.markClass dump ∘ ClassDecl.unmark = u.markClass dump := funext (markClass_unmark h)
  simp only [markProgram, Program.unmark, MainClass.unmark, mainScope, Scope.markStmt_unmark h, List.mapM_map, hclasses]

/-- Trees that differ in their marks alone have the same check. -/
theorem markProgram_eq_of_unmark_eq {p q : Program} (h : p.unmark = q.unmark) :
    t.markProgram dump p = t.markProgram dump q := by
  rw [← markProgram_unmark (.refl t) p, h, markProgram_unmark (.refl t) q]

/-- **Marks depend on the bare tree and the table, and on nothing else.**  Trees that differ in their marks alone come out
of a check the same, as the same tree or with the same error.  A tree that comes out is the one that went in but for its
marks, so that another check leaves it alone, and a tree that was marked against one table is marked against another as
if it came from the parser. -/
theorem markProgram_eq_fresh (t : ClassTable) (dump : Dump) :
    (∀ p q : Program, p.unmark = q.unmark → t.markProgram dump p = t.markProgram dump q) ∧
    (∀ p q, (t.markProgram dump p).result = .ok q → q.unmark = p.unmark ∧ (t.markProgram dump q).result = .ok q) ∧
    ∀ (u : ClassTable) (dump' : Dump) (p q : Program), (u.markProgram dump' p).result = .ok q →
      t.markProgram dump q = t.markProgram dump p := by
  refine ⟨fun p q h => markProgram_eq_of_unmark_eq h, fun p q h => ?_, fun u dump' p q h => ?_⟩
  · have hunmark := (markProgram_sound h).2.2
    exact ⟨hunmark, by rw [markProgram_eq_of_unmark_eq hunmark, h]⟩
  · exact markProgram_eq_of_unmark_eq (markProgram_sound h).2.2

end ClassTable

namespace Sample

/-- The table of the sample, but that the method of `Flags` takes a `Flags`. -/
def narrowTable : ClassTable :=
  let narrow (m : Method) : Method := { m with formals := [declare "c" (.object "Flags")] }
  let p : Program := { program with classes := [cell, { flags with methods := flags.methods.map narrow }] }
  p.classTable.result.toOption.getD .empty

/-- What the methods are called with that a program's results call. -/
def calledWith (p : Program) : List (List Ty) :=
  (p.classes.flatMap (·.methods)).filterMap fun m => match m.result with
    | .call _ _ _ _ (some resolution) => some resolution.formals
    | _ => none

end Sample

/-- The sample has other marks against the other table, and its own again against its own table. -/
theorem ClassTable.markProgram_eq_fresh_on_sample : ∃ q r,
    (Sample.narrowTable.markProgram ⟨false, false⟩ Sample.program).result = .ok q ∧
    (Sample.table.markProgram ⟨false, false⟩ Sample.program).result = .ok r ∧
    Sample.calledWith q = [[.object "Flags"]] ∧ Sample.calledWith r = [[.object "Cell"]] ∧ q.unmark = r.unmark ∧
    (Sample.table.markProgram ⟨false, false⟩ q).result = .ok r ∧
    (Sample.table.markProgram ⟨false, false⟩ r).result = .ok r := by
  obtain ⟨q, r, hq, hr, hflags, hcell⟩ : ∃ q r,
      (Sample.narrowTable.markProgram ⟨false, false⟩ Sample.program).result = .ok q ∧
      (Sample.table.markProgram ⟨false, false⟩ Sample.program).result = .ok r ∧
      Sample.calledWith q = [[.object "Flags"]] ∧ Sample.calledWith r = [[.object "Cell"]] :=
    ⟨_, _, by rfl, by rfl, by rfl, by rfl⟩
  obtain ⟨-, hnarrow, -⟩ := markProgram_eq_fresh Sample.narrowTable ⟨false, false⟩
  obtain ⟨-, hown, hfresh⟩ := markProgram_eq_fresh Sample.table ⟨false, false⟩
  refine ⟨q, r, hq, hr, hflags, hcell, ?_, ?_, (hown _ _ hr).2⟩
  · rw [(hnarrow _ _ hq).1, (hown _ _ hr).1]
  · rw [hfresh _ _ _ _ hq, hr]

end MiniJava
