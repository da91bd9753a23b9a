import MiniJava.Proofs.Failures
import MiniJava.Proofs.Tree.Spans
import MiniJava.Proofs.Typing.Elaborated
/-!
# Where semantic errors stand

Whatever is wrong with a program is reported at a span that the program holds: that of an expression, of a name or of a type
(`Program.span_of_elaborate_eq_error`).  Marking an expression leaves its span as it was, so an error at a marked operand is
one at the operand itself.
-/
namespace MiniJava

/-- If the check fails, its error stands at a span that has the property. -/
abbrev Blames (P : Span → Prop) {α : Type} (x : Semantic α) : Prop := FailsOnly (fun error => P error.span) x

variable {P : Span → Prop}

/-! ## Typing -/

namespace Scope

variable {sc : Scope}

theorem span_of_markExpr {e e' : Expr} {ty : Ty} (h : sc.markExpr e = .ok (e', ty)) : e'.span = e.span := by
  have hspan : ∀ a : Expr, a.unmark.span = a.span := fun a => by cases a <;> rfl
  rw [← hspan e', (markExpr_sound e h).2.2, hspan]

theorem exactly_blames {expected found : Ty} {span : Span} (h : P span) : Blames P (Typing.exactly expected found span) := by
  unfold Typing.exactly
  split
  · exact .ok _
  · exact .error h

theorem widening_blames {t : ClassTable} {expected found : Ty} {span : Span} (h : P span) :
    Blames P (Typing.widening t expected found span) := by
  unfold Typing.widening
  split
  · exact .ok _
  · exact .error h

theorem classOf_blames {found : Ty} {span : Span} (h : P span) : Blames P (Typing.classOf found span) := by
  unfold Typing.classOf
  split
  · exact .ok _
  · exact .error h

theorem markVariable_blames {x : Variable} (h : P x.name.span) : Blames P (sc.markVariable x) := by
  unfold markVariable
  split
  · exact .ok _
  · exact .error h

theorem methodOf_blames {c : Name} {m : Located Name} (h : P m.span) : Blames P (sc.methodOf c m) := by
  unfold methodOf
  split
  · exact .ok _
  · exact .error h

/-- What comes after an expression is marked may blame its span. -/
theorem afterExpr_blames {α : Type} {e : Expr} {f : Expr × Ty → Semantic α} (he : e.Placed P)
    (hmark : Blames P (sc.markExpr e)) (hf : ∀ e' found, P e'.span → Blames P (f (e', found))) :
    Blames P (sc.markExpr e >>= f) :=
  hmark.bind fun ⟨e', found⟩ h => hf e' found (span_of_markExpr h ▸ he.span)

mutual

/-- **An error in an expression stands at a span of the expression.** -/
theorem markExpr_blames : ∀ {e : Expr}, e.Placed P → Blames P (sc.markExpr e)
  | .literal _ _, _ => .ok _
  | .bool _ _, _ => .ok _
  | .self _, .self hm => by
    rw [markExpr]
    split
    · exact .ok _
    · exact .error hm
  | .read _ _, .read _ hx => by
    rw [markExpr]
    exact (markVariable_blames hx).bind fun _ _ => .pure _
  | .binary _ l op r, .binary _ hl hr => by
    rw [markExpr]
    refine afterExpr_blames hl (markExpr_blames hl) fun l' leftType hleft => ?_
    refine (exactly_blames hleft).bind fun _ _ => ?_
    refine afterExpr_blames hr (markExpr_blames hr) fun r' rightType hright => ?_
    exact (exactly_blames hright).bind fun _ _ => .pure _
  | .not _ e, .not _ he => by
    rw [markExpr]
    refine afterExpr_blames he (markExpr_blames he) fun e' found hoperand => ?_
    exact (exactly_blames hoperand).bind fun _ _ => .pure _
  | .index _ a i, .index _ ha hi => by
    rw [markExpr]
    refine afterExpr_blames ha (markExpr_blames ha) fun a' arrayType harray => ?_
    refine (exactly_blames harray).bind fun _ _ => ?_
    refine afterExpr_blames hi (markExpr_blames hi) fun i' found hindex => ?_
    exact (exactly_blames hindex).bind fun _ _ => .pure _
  | .length _ a, .length _ ha => by
    rw [markExpr]
    refine afterExpr_blames ha (markExpr_blames ha) fun a' found harray => ?_
    exact (exactly_blames harray).bind fun _ _ => .pure _
  | .newArray _ n, .newArray _ hn => by
    rw [markExpr]
    refine afterExpr_blames hn (markExpr_blames hn) fun n' found hlength => ?_
    exact (exactly_blames hlength).bind fun _ _ => .pure _
  | .newObject _ _, .newObject _ hc => by
    rw [markExpr]
    split
    · exact .ok _
    · exact .error hc
  | .call _ r f es _, .call hm hr hf hes => by
    rw [markExpr]
    refine afterExpr_blames hr (markExpr_blames hr) fun r' found hreceiver => ?_
    refine (classOf_blames hreceiver).bind fun c _ => ?_
    refine (methodOf_blames hf).bind fun signature _ => ?_
    split
    · exact .error hm
    · exact (markArguments_blames hes).bind fun _ _ => .pure _

theorem markArguments_blames : ∀ {es : List Expr} {formals : List Ty}, (∀ e ∈ es, e.Placed P) →
    Blames P (sc.markArguments formals es)
  | [], [], _ => .ok _
  | [], _ :: _, _ => .ok _
  | _ :: _, [], _ => .ok _
  | e :: es, formal :: formals, h => by
    obtain ⟨he, hes⟩ := List.forall_mem_cons.1 h
    rw [markArguments]
    refine afterExpr_blames he (markExpr_blames he) fun e' found hargument => ?_
    refine (widening_blames hargument).bind fun _ _ => ?_
    exact (markArguments_blames hes).bind fun _ _ => .pure _

end

theorem markExact_blames {expected : Ty} {e : Expr} (he : e.Placed P) : Blames P (sc.markExact expected e) := by
  unfold markExact
  refine afterExpr_blames he (markExpr_blames he) fun e' found hspan => ?_
  exact (exactly_blames hspan).bind fun _ _ => .pure _

mutual

theorem markStmt_blames : ∀ {s : Stmt}, s.Placed P → Blames P (sc.markStmt s)
  | .block body, .block hbody => by
    rw [markStmt]
    exact (markStmts_blames hbody).bind fun _ _ => .pure _
  | .ite c yes no, .ite hc hy hn => by
    rw [markStmt]
    refine (markExact_blames hc).bind fun _ _ => ?_
    exact (markStmt_blames hy).bind fun _ _ => (markStmt_blames hn).bind fun _ _ => .pure _
  | .loop c body, .loop hc hb => by
    rw [markStmt]
    exact (markExact_blames hc).bind fun _ _ => (markStmt_blames hb).bind fun _ _ => .pure _
  | .print e, .print he => by
    rw [markStmt]
    exact (markExact_blames he).bind fun _ _ => .pure _
  | .assign x e, .assign hx he => by
    rw [markStmt]
    refine (markVariable_blames hx).bind fun ⟨x', ty⟩ _ => ?_
    exact (markExact_blames he).bind fun _ _ => .pure _
  | .store x i e, .store hx hi he => by
    rw [markStmt]
    refine (markVariable_blames hx).bind fun ⟨x', ty⟩ hfound => ?_
    obtain ⟨_, -, -, hunmark⟩ := markVariable_eq_ok.1 hfound
    have hname : x'.unmark.name = x.unmark.name := congrArg Variable.name hunmark
    have hx' : P x'.name.span := (congrArg (P ·.span) hname).mpr hx
    refine (exactly_blames hx').bind fun _ _ => ?_
    exact (markExact_blames hi).bind fun _ _ => (markExact_blames he).bind fun _ _ => .pure _

theorem markStmts_blames : ∀ {ss : List Stmt}, (∀ s ∈ ss, s.Placed P) → Blames P (sc.markStmts ss)
  | [], _ => .ok _
  | s :: ss, h => by
    obtain ⟨hs, hss⟩ := List.forall_mem_cons.1 h
    rw [markStmts]
    exact (markStmt_blames hs).bind fun _ _ => (markStmts_blames hss).bind fun _ _ => .pure _

end

end Scope

/-! ## Class tables -/

namespace ClassTable

variable {t : ClassTable}

theorem register_blames {c : Located Name} {parent : Option Name} (h : P c.span) : Blames P (t.register c parent) := by
  unfold register
  split
  · exact .ok _
  · exact .error h

theorem checkParent_blames {c parent : Name} {clause : Located Name} (h : P clause.span) :
    Blames P (t.checkParent c parent clause) := by
  unfold checkParent
  split
  · exact .error h
  split
  · exact .error h
  · exact .ok _

theorem validate_blames {locate : Name → Option (Located Name)} (h : ∀ c, ∀ clause ∈ locate c, P clause.span) :
    Blames P (t.validate locate).result := by
  simp only [validate, Logged.result_bind, Logged.result_ofExcept, Logged.result_note]
  refine FailsOnly.bind (FailsOnly.forM fun e _ => ?_) fun _ _ => .ok _
  split
  · rename_i clause _ hclause
    exact checkParent_blames (h e.1 clause hclause)
  · exact .ok _

theorem checkDeclared_blames {ty : Located Ty} (h : P ty.span) : Blames P (t.checkDeclared ty) := by
  unfold checkDeclared
  split
  · split
    · exact .ok _
    · exact .error h
  · exact .ok _

theorem addMember_blames {c : Name} {member : Located Name} {add : ClassEntry → Option ClassEntry} (h : P member.span) :
    Blames P (t.addMember c member add) := by
  unfold addMember
  split
  · exact .error h
  split
  · exact .error h
  · exact .ok _

theorem declareField_blames {c : Name} {d : Declaration} (h : d.Placed P) : Blames P (t.declareField c d) :=
  (checkDeclared_blames h.ty).bind fun _ _ => addMember_blames h.name

theorem declareMethod_blames {c : Name} {m : Method} (h : m.Placed P) : Blames P (t.declareMethod c m) := by
  unfold declareMethod
  refine (checkDeclared_blames h.returns).bind fun _ _ => ?_
  refine FailsOnly.bind (FailsOnly.forM fun d hd => checkDeclared_blames (h.formals d hd).ty) fun _ _ => ?_
  exact addMember_blames h.name

theorem declareMembers_blames {c : ClassDecl} (h : c.Placed P) : Blames P (t.declareMembers c) := by
  unfold declareMembers
  refine FailsOnly.bind (FailsOnly.foldlM fun d hd _ => declareField_blames (h.fields d hd)) fun _ _ => ?_
  exact FailsOnly.foldlM fun m hm _ => declareMethod_blames (h.methods m hm)

theorem localsOf_blames {m : Method} (h : m.Placed P) : Blames P (t.localsOf m) := by
  unfold localsOf Locals.ofDeclarations
  refine FailsOnly.bind (FailsOnly.forM fun d hd => checkDeclared_blames (h.locals d hd).ty) fun _ _ => ?_
  refine FailsOnly.foldlM fun d hd locals => ?_
  have hname : P d.name.span := (List.mem_append.1 hd).elim (fun hd => (h.formals d hd).name) fun hd => (h.locals d hd).name
  unfold Locals.declare
  split
  · exact .ok _
  · exact .error hname

/-! ## Programs -/

theorem markMethod_blames {dump : Dump} {c : Name} {m : Method} (h : m.Placed P) :
    Blames P (t.markMethod dump c m).result := by
  rw [result_markMethod]
  refine (localsOf_blames h).bind fun locals _ => ?_
  unfold Scope.markBody
  refine (Scope.markStmts_blames h.body).bind fun _ _ => ?_
  refine Scope.afterExpr_blames h.result (Scope.markExpr_blames h.result) fun result found hresult => ?_
  exact (Scope.widening_blames hresult).bind fun _ _ => .pure _

theorem markProgram_blames {dump : Dump} {p : Program} (h : p.Placed P) : Blames P (t.markProgram dump p).result := by
  rw [result_markProgram]
  refine (Scope.markStmt_blames h.main.body).bind fun _ _ => ?_
  refine FailsOnly.bind (FailsOnly.mapM fun c hc => ?_) fun _ _ => .pure _
  rw [result_markClass]
  exact FailsOnly.bind (FailsOnly.mapM fun m hm => markMethod_blames ((h.classes c hc).methods m hm)) fun _ _ => .pure _

end ClassTable

namespace Program

variable {p : Program}

theorem classTable_blames (h : p.Placed P) : Blames P p.classTable.result := by
  have hclause : ∀ c, ∀ clause ∈ p.parentClause c, P clause.span := fun c clause hclause => by
    obtain ⟨d, hd, hparent⟩ := Option.bind_eq_some_iff.1 hclause
    exact (h.classes d (List.mem_of_find?_eq_some hd)).parent clause hparent
  rw [result_classTable]
  refine FailsOnly.bind ?_ fun names _ => (ClassTable.validate_blames hclause).bind fun _ _ =>
    FailsOnly.foldlM fun c hc _ => ClassTable.declareMembers_blames (h.classes c hc)
  unfold registered ClassTable.registerMain
  refine FailsOnly.bind ((ClassTable.register_blames h.main.name).bind fun _ _ => .pure _) fun _ _ => ?_
  exact FailsOnly.foldlM fun c hc _ => ClassTable.register_blames (h.classes c hc).name

/-- **A semantic error stands at a span that the program holds.** -/
theorem span_of_elaborate_eq_error {dump : Dump} {error : Located SemanticError} (h : p.Placed P)
    (herror : (p.elaborate dump).result = .error error) : P error.span := by
  rw [result_elaborate] at herror
  refine FailsOnly.bind (classTable_blames h) (fun t _ => ?_) error herror
  exact (ClassTable.markProgram_blames h).bind fun _ _ => .pure _

end Program

end MiniJava
