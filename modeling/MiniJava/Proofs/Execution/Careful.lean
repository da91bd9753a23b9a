import MiniJava.Proofs.Execution.Lazy
/-!
# Careful runs

A careful run passes over a right operand of `&&` only where the operand would ask the host for nothing.  It is a run of
the reading in which `&&` evaluates both operands as well (`LazyExec.eager`), since a left operand of 0 makes the
conjunction 0 whatever the right one is.

Where the right operand of every `&&` is silent, all runs are careful, those that pass over anything (`LazyExec.mono`,
`idle_of_silent`) and those that pass over nothing (`Exec.careful`), so that both readings are the same
(`execMethod_iff_of_silent`).
-/
namespace MiniJava.Execution

open MiniJava.Expr (EachRight eachRight_cons eachRight_append)

variable {Ref S : Type} {host : Host Ref S} {act : Activation Ref} {passes passes' : Expr → Env Ref → S → Prop}
  {sc : Scope} {env : Env Ref} {s s' : S} {t : Trace Ref} {v : Value Ref}

/-! ## Silent operands -/

/-- **A silent expression asks the host for nothing**, and leaves it in the state that it was in. -/
theorem Eval.silent : ∀ {e : Expr} {s s' : S} {t : Trace Ref} {v : Value Ref}, Eval host act env e s t v s' →
    e.Silent → t = [] ∧ s' = s
  | .literal _ _, _, _, _, _, .literal, _ | .bool _ _, _, _, _, _, .bool, _ | .self _, _, _, _, _, .self _, _ => ⟨rfl, rfl⟩
  | .read _ x, _, _, _, _, .read hr, h => by
    cases hr with
    | method _ => exact ⟨rfl, rfl⟩
    | object hhome _ _ _ =>
      have hasks := h _ List.mem_cons_self
      simp [Expr.asks, hhome] at hasks
  | .binary _ l _ r, _, _, _, _, .binary hl hr, h => by
    obtain ⟨hsl, hsr⟩ := List.forall_mem_append.1 (List.forall_mem_cons.1 h).2
    obtain ⟨rfl, rfl⟩ := Eval.silent hl hsl
    exact Eval.silent hr hsr
  | .not _ e, _, _, _, _, .not he, h => Eval.silent he (List.forall_mem_cons.1 h).2
  | .index _ _ _, _, _, _, _, _, h | .length _ _, _, _, _, _, _, h | .newArray _ _, _, _, _, _, _, h
  | .newObject _ _, _, _, _, _, _, h | .call _ _ _ _ _, _, _, _, _, _, h => by
    cases h _ List.mem_cons_self

/-- **A silent expression always has a value**, and it is of the expression's type. -/
theorem eval_of_silent (hserves : act.Serves sc) (henv : env.Holds sc) : ∀ {e : Expr} {ty : Ty}, sc.Marked e ty →
    e.Silent → ∃ v, Eval host act env e s [] v s ∧ v.HasType ty
  | .literal _ _, _, .literal, _ => ⟨_, .literal, _, rfl⟩
  | .bool _ _, _, .bool, _ => ⟨_, .bool, _, rfl⟩
  | .self _, _, .self hcurrent, _ => by
    obtain ⟨-, o, ho⟩ := hserves _ hcurrent
    exact ⟨_, .self ho, o, rfl⟩
  | .read _ x, _, .read hx, h => by
    obtain ⟨hfinds⟩ := hx
    cases hfinds with
    | method hget => exact ⟨_, .read (.method rfl), henv _ _ hget⟩
    | object _ _ _ => cases h _ List.mem_cons_self
  | .binary _ l op r, _, .binary hl hr, h => by
    obtain ⟨hsl, hsr⟩ := List.forall_mem_append.1 (List.forall_mem_cons.1 h).2
    obtain ⟨_, hl, htl⟩ := eval_of_silent hserves henv hl hsl
    obtain ⟨_, hr, htr⟩ := eval_of_silent hserves henv hr hsr
    cases op with
    | add | sub | mul =>
      obtain ⟨a, rfl⟩ := htl
      obtain ⟨b, rfl⟩ := htr
      exact ⟨_, .binary hl hr, _, rfl⟩
    | less =>
      obtain ⟨a, rfl⟩ := htl
      obtain ⟨b, rfl⟩ := htr
      exact ⟨_, .binary hl hr, a.slt b, rfl⟩
    | and =>
      obtain ⟨a, rfl⟩ := htl
      obtain ⟨b, rfl⟩ := htr
      exact ⟨_, .binary hl hr, a && b, congrArg Value.int (apply_and_truth a b)⟩
  | .not _ e, _, .not he, h => by
    obtain ⟨_, he, a, rfl⟩ := eval_of_silent hserves henv he (List.forall_mem_cons.1 h).2
    exact ⟨_, .not he, _, rfl⟩
  | .index _ _ _, _, _, h | .length _ _, _, _, h | .newArray _ _, _, _, h | .newObject _ _, _, _, h
  | .call _ _ _ _ _, _, _, h => by
    cases h _ List.mem_cons_self

theorem idle_of_silent (hserves : act.Serves sc) (henv : env.Holds sc) {e : Expr} (he : sc.Marked e .boolean)
    (h : e.Silent) : Idle host act e env s := by
  have hvalue : ∃ v, Eval host act env e s [] v s ∧ v.HasType .boolean := eval_of_silent hserves henv he h
  obtain ⟨_, he, b, rfl⟩ := hvalue
  exact ⟨_, he⟩

/-! ## Careful runs evaluate both operands -/

mutual

/-- **A careful evaluation comes to the same when both operands are evaluated.** -/
theorem LazyEval.eager (hh : Typed host act sc) (henv : env.Holds sc) : ∀ {e : Expr} {ty : Ty} {s s' : S} {t : Trace Ref}
    {v : Value Ref}, LazyEval host act (Idle host act) env e s t v s' → sc.Marked e ty → Eval host act env e s t v s'
  | .literal _ _, _, _, _, _, _, h, _ => by cases h; exact .literal
  | .bool _ _, _, _, _, _, _, h, _ => by cases h; exact .bool
  | .self _, _, _, _, _, _, h, _ => by cases h with | self ho => exact .self ho
  | .read _ _, _, _, _, _, _, h, _ => by cases h with | read hr => exact .read hr
  | .binary _ _ _ _, _, _, _, t, _, h, .binary hml hmr => by
    cases h with
    | binary _ hl hr => exact .binary (hl.eager hh henv hml) (hr.eager hh henv hmr)
    | both hl ha hr =>
      have hand := (hl.hasType hh hml henv).apply_and (hr.hasType hh hmr henv) ha
      rw [← hand]
      exact .binary (hl.eager hh henv hml) (hr.eager hh henv hmr)
    | pass hl hidle =>
      obtain ⟨b, hr⟩ := hidle
      have hzero : apply .and 0 b = 0 := BitVec.zero_and
      rw [← hzero, ← List.append_nil t]
      exact .binary (hl.eager hh henv hml) hr
  | .not _ _, _, _, _, _, _, h, .not hme => by
    cases h with | not he => exact .not (he.eager hh henv hme)
  | .index _ _ _, _, _, _, _, _, h, .index hma hmi => by
    cases h with | index ha hi hp => exact .index (ha.eager hh henv hma) (hi.eager hh henv hmi) hp
  | .length _ _, _, _, _, _, _, h, .length hma => by
    cases h with | length ha hp => exact .length (ha.eager hh henv hma) hp
  | .newArray _ _, _, _, _, _, _, h, .newArray hme => by
    cases h with | newArray he hp => exact .newArray (he.eager hh henv hme) hp
  | .newObject _ _, _, _, _, _, _, h, _ => by cases h with | newObject hp => exact .newObject hp
  | .call _ _ _ _ _, _, _, _, _, _, h, .call hmr _ hmes _ => by
    cases h with | call hr hes hp => exact .call (hr.eager hh henv hmr) (hes.eager hh henv hmes) hp

theorem LazyEvalAll.eager (hh : Typed host act sc) (henv : env.Holds sc) : ∀ {es : List Expr} {tys : List Ty} {s s' : S}
    {t : Trace Ref} {vs : List (Value Ref)}, LazyEvalAll host act (Idle host act) env es s t vs s' →
    List.Forall₂ sc.Marked es tys → EvalAll host act env es s t vs s'
  | [], _, _, _, _, _, h, _ => by cases h; exact .nil
  | _ :: _, _, _, _, _, _, h, .cons hme hmes => by
    cases h with | cons he hes => exact .cons (he.eager hh henv hme) (hes.eager hh henv hmes)

end

mutual

/-- **A careful execution is an execution that evaluates both operands.** -/
theorem LazyExec.eager (hh : Typed host act sc) : ∀ {c : Stmt} {env env' : Env Ref} {s s' : S} {t : Trace Ref},
    LazyExec host act (Idle host act) c env s t env' s' → sc.MarkedStmt c → env.Holds sc →
    Exec host act c env s t env' s'
  | _, _, _, _, _, _, .block h, .block hb, henv => .block (h.eager hh hb henv)
  | _, _, _, _, _, _, .iteTrue hc ha h, .ite hmc hy _, henv =>
    .iteTrue (hc.eager hh henv hmc) ha (h.eager hh hy henv)
  | _, _, _, _, _, _, .iteFalse hc h, .ite hmc _ hn, henv => .iteFalse (hc.eager hh henv hmc) (h.eager hh hn henv)
  | _, _, _, _, _, _, .loop hc ha hb h, .loop hmc hmb, henv =>
    .loop (hc.eager hh henv hmc) ha (hb.eager hh hmb henv) (h.eager hh (.loop hmc hmb) (hb.holds hh hmb henv))
  | _, _, _, _, _, _, .loopDone hc, .loop hmc _, henv => .loopDone (hc.eager hh henv hmc)
  | _, _, _, _, _, _, .print he hp, .print hme, henv => .print (he.eager hh henv hme) hp
  | _, _, _, _, _, _, .assignMethod hhome he, .assign _ hme, henv => .assignMethod hhome (he.eager hh henv hme)
  | _, _, _, _, _, _, .assignObject hhome hty ho he hp, .assign _ hme, henv =>
    .assignObject hhome hty ho (he.eager hh henv hme) hp
  | _, _, _, _, _, _, .store hx hi he hp, .store _ hmi hme, henv =>
    .store hx (hi.eager hh henv hmi) (he.eager hh henv hme) hp

theorem LazyExecAll.eager (hh : Typed host act sc) : ∀ {cs : List Stmt} {env env' : Env Ref} {s s' : S} {t : Trace Ref},
    LazyExecAll host act (Idle host act) cs env s t env' s' → (∀ c ∈ cs, sc.MarkedStmt c) → env.Holds sc →
    ExecAll host act cs env s t env' s'
  | _, _, _, _, _, _, .nil, _, _ => .nil
  | _, _, _, _, _, _, .cons h hs, hmarked, henv => by
    obtain ⟨hc, hcs⟩ := List.forall_mem_cons.1 hmarked
    exact .cons (h.eager hh hc henv) (hs.eager hh hcs (h.holds hh hc henv))

end

/-! ## Passing over more, or less -/

mutual

/-- An evaluation stays one when every operand that it could pass over may still be passed over. -/
theorem LazyEval.mono : ∀ {e : Expr} {ty : Ty} {s s' : S} {t : Trace Ref} {v : Value Ref},
    LazyEval host act passes env e s t v s' → sc.Marked e ty →
    EachRight (fun r => sc.Marked r .boolean → ∀ s, passes r env s → passes' r env s) e.parts →
    LazyEval host act passes' env e s t v s'
  | .literal _ _, _, _, _, _, _, h, _, _ => by cases h; exact .literal
  | .bool _ _, _, _, _, _, _, h, _, _ => by cases h; exact .bool
  | .self _, _, _, _, _, _, h, _, _ => by cases h with | self ho => exact .self ho
  | .read _ _, _, _, _, _, _, h, _, _ => by cases h with | read hr => exact .read hr
  | .binary _ _ _ _, _, _, _, _, _, h, .binary hml hmr, hparts => by
    obtain ⟨hself, hparts⟩ := eachRight_cons.1 hparts
    obtain ⟨hpl, hpr⟩ := eachRight_append.1 hparts
    cases h with
    | binary hop hl hr => exact .binary hop (hl.mono hml hpl) (hr.mono hmr hpr)
    | both hl ha hr => exact .both (hl.mono hml hpl) ha (hr.mono hmr hpr)
    | pass hl hpass => exact .pass (hl.mono hml hpl) (hself _ _ _ rfl hmr _ hpass)
  | .not _ _, _, _, _, _, _, h, .not hme, hparts => by
    cases h with | not he => exact .not (he.mono hme (eachRight_cons.1 hparts).2)
  | .index _ _ _, _, _, _, _, _, h, .index hma hmi, hparts => by
    obtain ⟨hpa, hpi⟩ := eachRight_append.1 (eachRight_cons.1 hparts).2
    cases h with | index ha hi hp => exact .index (ha.mono hma hpa) (hi.mono hmi hpi) hp
  | .length _ _, _, _, _, _, _, h, .length hma, hparts => by
    cases h with | length ha hp => exact .length (ha.mono hma (eachRight_cons.1 hparts).2) hp
  | .newArray _ _, _, _, _, _, _, h, .newArray hme, hparts => by
    cases h with | newArray he hp => exact .newArray (he.mono hme (eachRight_cons.1 hparts).2) hp
  | .newObject _ _, _, _, _, _, _, h, _, _ => by cases h with | newObject hp => exact .newObject hp
  | .call _ _ _ _ _, _, _, _, _, _, h, .call hmr _ hmes _, hparts => by
    obtain ⟨hpr, hpes⟩ := eachRight_append.1 (eachRight_cons.1 hparts).2
    cases h with | call hr hes hp => exact .call (hr.mono hmr hpr) (hes.mono hmes hpes) hp

theorem LazyEvalAll.mono : ∀ {es : List Expr} {tys : List Ty} {s s' : S} {t : Trace Ref} {vs : List (Value Ref)},
    LazyEvalAll host act passes env es s t vs s' → List.Forall₂ sc.Marked es tys →
    EachRight (fun r => sc.Marked r .boolean → ∀ s, passes r env s → passes' r env s) (Expr.partsAll es) →
    LazyEvalAll host act passes' env es s t vs s'
  | [], _, _, _, _, _, h, _, _ => by cases h; exact .nil
  | _ :: _, _, _, _, _, _, h, .cons hme hmes, hparts => by
    obtain ⟨hpe, hpes⟩ := eachRight_append.1 hparts
    cases h with | cons he hes => exact .cons (he.mono hme hpe) (hes.mono hmes hpes)

end

mutual

/-- **An execution stays one when every operand that it could pass over may still be passed over**, as long as variables
hold values of their types. -/
theorem LazyExec.mono (hh : Typed host act sc) : ∀ {c : Stmt} {env env' : Env Ref} {s s' : S} {t : Trace Ref},
    LazyExec host act passes c env s t env' s' → sc.MarkedStmt c → env.Holds sc →
    EachRight (fun r => sc.Marked r .boolean → ∀ env s, env.Holds sc → passes r env s → passes' r env s) c.expressions →
    LazyExec host act passes' c env s t env' s'
  | _, _, _, _, _, _, .block h, .block hb, henv, hp => .block (h.mono hh hb henv hp)
  | _, _, _, _, _, _, .iteTrue hc ha h, .ite hmc hy _, henv, hp => by
    obtain ⟨hp, -⟩ := eachRight_append.1 hp
    obtain ⟨hpc, hpy⟩ := eachRight_append.1 hp
    exact .iteTrue (hc.mono hmc (hpc.imp fun _ h hm s => h hm _ s henv)) ha (h.mono hh hy henv hpy)
  | _, _, _, _, _, _, .iteFalse hc h, .ite hmc _ hn, henv, hp => by
    obtain ⟨hp, hpn⟩ := eachRight_append.1 hp
    obtain ⟨hpc, -⟩ := eachRight_append.1 hp
    exact .iteFalse (hc.mono hmc (hpc.imp fun _ h hm s => h hm _ s henv)) (h.mono hh hn henv hpn)
  | _, _, _, _, _, _, .loop hc ha hb h, .loop hmc hmb, henv, hp => by
    obtain ⟨hpc, hpb⟩ := eachRight_append.1 hp
    exact .loop (hc.mono hmc (hpc.imp fun _ h hm s => h hm _ s henv)) ha (hb.mono hh hmb henv hpb)
      (h.mono hh (.loop hmc hmb) (hb.holds hh hmb henv) hp)
  | _, _, _, _, _, _, .loopDone hc, .loop hmc _, henv, hp =>
    .loopDone (hc.mono hmc ((eachRight_append.1 hp).1.imp fun _ h hm s => h hm _ s henv))
  | _, _, _, _, _, _, .print he hp, .print hme, henv, hparts =>
    .print (he.mono hme (hparts.imp fun _ h hm s => h hm _ s henv)) hp
  | _, _, _, _, _, _, .assignMethod hhome he, .assign _ hme, henv, hp =>
    .assignMethod hhome (he.mono hme (hp.imp fun _ h hm s => h hm _ s henv))
  | _, _, _, _, _, _, .assignObject hhome hty ho he hp, .assign _ hme, henv, hparts =>
    .assignObject hhome hty ho (he.mono hme (hparts.imp fun _ h hm s => h hm _ s henv)) hp
  | _, _, _, _, _, _, .store hx hi he hp, .store _ hmi hme, henv, hparts => by
    obtain ⟨hpi, hpe⟩ := eachRight_append.1 hparts
    exact .store hx (hi.mono hmi (hpi.imp fun _ h hm s => h hm _ s henv))
      (he.mono hme (hpe.imp fun _ h hm s => h hm _ s henv)) hp

theorem LazyExecAll.mono (hh : Typed host act sc) : ∀ {cs : List Stmt} {env env' : Env Ref} {s s' : S} {t : Trace Ref},
    LazyExecAll host act passes cs env s t env' s' → (∀ c ∈ cs, sc.MarkedStmt c) → env.Holds sc →
    EachRight (fun r => sc.Marked r .boolean → ∀ env s, env.Holds sc → passes r env s → passes' r env s)
      (Stmt.expressionsAll cs) → LazyExecAll host act passes' cs env s t env' s'
  | _, _, _, _, _, _, .nil, _, _, _ => .nil
  | _, _, _, _, _, _, .cons h hs, hmarked, henv, hp => by
    obtain ⟨hc, hcs⟩ := List.forall_mem_cons.1 hmarked
    obtain ⟨hpc, hpcs⟩ := eachRight_append.1 hp
    exact .cons (h.mono hh hc henv hpc) (hs.mono hh hcs (h.holds hh hc henv) hpcs)

end

/-! ## Runs past silent operands are careful -/

mutual

/-- **Evaluating both operands is careful where the right ones are silent.** -/
theorem Eval.careful (hh : Typed host act sc) (henv : env.Holds sc) : ∀ {e : Expr} {ty : Ty} {s s' : S} {t : Trace Ref}
    {v : Value Ref}, Eval host act env e s t v s' → sc.Marked e ty → EachRight Expr.Silent e.parts →
    LazyEval host act (Idle host act) env e s t v s'
  | .literal _ _, _, _, _, _, _, h, _, _ => by cases h; exact .literal
  | .bool _ _, _, _, _, _, _, h, _, _ => by cases h; exact .bool
  | .self _, _, _, _, _, _, h, _, _ => by cases h with | self ho => exact .self ho
  | .read _ _, _, _, _, _, _, h, _, _ => by cases h with | read hr => exact .read hr
  | .binary _ _ op _, _, _, _, _, _, h, .binary hml hmr, hparts => by
    obtain ⟨hself, hparts⟩ := eachRight_cons.1 hparts
    obtain ⟨hpl, hpr⟩ := eachRight_append.1 hparts
    cases h with
    | @binary _ _ _ _ _ _ _ t₁ _ a b hl hr =>
      have hcl := hl.careful hh henv hml hpl
      have hcr := hr.careful hh henv hmr hpr
      by_cases hop : op = .and
      · subst hop
        by_cases ha : a = 0
        · subst ha
          -- The right operand is evaluated to no effect, so that it may be passed over.
          obtain ⟨rfl, rfl⟩ := hr.silent (hself _ _ _ rfl)
          have hzero : apply .and 0 b = 0 := BitVec.zero_and
          rw [hzero, List.append_nil]
          exact .pass hcl ⟨b, hr⟩
        · rw [(hcl.hasType hh hml henv).apply_and (hcr.hasType hh hmr henv) ha]
          exact .both hcl ha hcr
      · exact .binary hop hcl hcr
  | .not _ _, _, _, _, _, _, h, .not hme, hparts => by
    cases h with | not he => exact .not (he.careful hh henv hme (eachRight_cons.1 hparts).2)
  | .index _ _ _, _, _, _, _, _, h, .index hma hmi, hparts => by
    obtain ⟨hpa, hpi⟩ := eachRight_append.1 (eachRight_cons.1 hparts).2
    cases h with | index ha hi hp => exact .index (ha.careful hh henv hma hpa) (hi.careful hh henv hmi hpi) hp
  | .length _ _, _, _, _, _, _, h, .length hma, hparts => by
    cases h with | length ha hp => exact .length (ha.careful hh henv hma (eachRight_cons.1 hparts).2) hp
  | .newArray _ _, _, _, _, _, _, h, .newArray hme, hparts => by
    cases h with | newArray he hp => exact .newArray (he.careful hh henv hme (eachRight_cons.1 hparts).2) hp
  | .newObject _ _, _, _, _, _, _, h, _, _ => by cases h with | newObject hp => exact .newObject hp
  | .call _ _ _ _ _, _, _, _, _, _, h, .call hmr _ hmes _, hparts => by
    obtain ⟨hpr, hpes⟩ := eachRight_append.1 (eachRight_cons.1 hparts).2
    cases h with | call hr hes hp => exact .call (hr.careful hh henv hmr hpr) (hes.careful hh henv hmes hpes) hp

theorem EvalAll.careful (hh : Typed host act sc) (henv : env.Holds sc) : ∀ {es : List Expr} {tys : List Ty} {s s' : S}
    {t : Trace Ref} {vs : List (Value Ref)}, EvalAll host act env es s t vs s' → List.Forall₂ sc.Marked es tys →
    EachRight Expr.Silent (Expr.partsAll es) → LazyEvalAll host act (Idle host act) env es s t vs s'
  | [], _, _, _, _, _, h, _, _ => by cases h; exact .nil
  | _ :: _, _, _, _, _, _, h, .cons hme hmes, hparts => by
    obtain ⟨hpe, hpes⟩ := eachRight_append.1 hparts
    cases h with | cons he hes => exact .cons (he.careful hh henv hme hpe) (hes.careful hh henv hmes hpes)

end

mutual

theorem Exec.careful (hh : Typed host act sc) : ∀ {c : Stmt} {env env' : Env Ref} {s s' : S} {t : Trace Ref},
    Exec host act c env s t env' s' → sc.MarkedStmt c → env.Holds sc → EachRight Expr.Silent c.expressions →
    LazyExec host act (Idle host act) c env s t env' s'
  | _, _, _, _, _, _, .block h, .block hb, henv, hp => .block (h.careful hh hb henv hp)
  | _, _, _, _, _, _, .iteTrue hc ha h, .ite hmc hy _, henv, hp => by
    obtain ⟨hp, -⟩ := eachRight_append.1 hp
    obtain ⟨hpc, hpy⟩ := eachRight_append.1 hp
    exact .iteTrue (hc.careful hh henv hmc hpc) ha (h.careful hh hy henv hpy)
  | _, _, _, _, _, _, .iteFalse hc h, .ite hmc _ hn, henv, hp => by
    obtain ⟨hp, hpn⟩ := eachRight_append.1 hp
    obtain ⟨hpc, -⟩ := eachRight_append.1 hp
    exact .iteFalse (hc.careful hh henv hmc hpc) (h.careful hh hn henv hpn)
  | _, _, _, _, _, _, .loop hc ha hb h, .loop hmc hmb, henv, hp => by
    obtain ⟨hpc, hpb⟩ := eachRight_append.1 hp
    have hb := hb.careful hh hmb henv hpb
    exact .loop (hc.careful hh henv hmc hpc) ha hb (h.careful hh (.loop hmc hmb) (hb.holds hh hmb henv) hp)
  | _, _, _, _, _, _, .loopDone hc, .loop hmc _, henv, hp =>
    .loopDone (hc.careful hh henv hmc (eachRight_append.1 hp).1)
  | _, _, _, _, _, _, .print he hp, .print hme, henv, hparts => .print (he.careful hh henv hme hparts) hp
  | _, _, _, _, _, _, .assignMethod hhome he, .assign _ hme, henv, hp =>
    .assignMethod hhome (he.careful hh henv hme hp)
  | _, _, _, _, _, _, .assignObject hhome hty ho he hp, .assign _ hme, henv, hparts =>
    .assignObject hhome hty ho (he.careful hh henv hme hparts) hp
  | _, _, _, _, _, _, .store hx hi he hp, .store _ hmi hme, henv, hparts => by
    obtain ⟨hpi, hpe⟩ := eachRight_append.1 hparts
    exact .store hx (hi.careful hh henv hmi hpi) (he.careful hh henv hme hpe) hp

theorem ExecAll.careful (hh : Typed host act sc) : ∀ {cs : List Stmt} {env env' : Env Ref} {s s' : S} {t : Trace Ref},
    ExecAll host act cs env s t env' s' → (∀ c ∈ cs, sc.MarkedStmt c) → env.Holds sc →
    EachRight Expr.Silent (Stmt.expressionsAll cs) → LazyExecAll host act (Idle host act) cs env s t env' s'
  | _, _, _, _, _, _, .nil, _, _, _ => .nil
  | _, _, _, _, _, _, .cons h hs, hmarked, henv, hp => by
    obtain ⟨hc, hcs⟩ := List.forall_mem_cons.1 hmarked
    obtain ⟨hpc, hpcs⟩ := eachRight_append.1 hp
    have h := h.careful hh hc henv hpc
    exact .cons h (hs.careful hh hcs (h.holds hh hc henv) hpcs)

end

/-! ## Methods -/

/-- An execution that passes over what it likes passes over less when it is careful. -/
theorem LazyExec.anything (hh : Typed host act sc) {c : Stmt} {env' : Env Ref} (henv : env.Holds sc)
    (hc : sc.MarkedStmt c) (h : LazyExec host act passes c env s t env' s') :
    LazyExec host act anything c env s t env' s' :=
  h.mono hh hc henv fun _ _ _ _ _ _ _ _ _ => trivial

/-- **Where right operands are silent it makes no difference whether they are evaluated.** -/
theorem exec_iff_of_silent (hh : Typed host act sc) {c : Stmt} {env' : Env Ref} (henv : env.Holds sc)
    (hc : sc.MarkedStmt c) (hsilent : EachRight Expr.Silent c.expressions) :
    Exec host act c env s t env' s' ↔ LazyExec host act anything c env s t env' s' := by
  constructor
  · exact fun h => (h.careful hh hc henv hsilent).anything hh henv hc
  · intro h
    refine LazyExec.eager hh (h.mono hh hc henv ?_) hc henv
    exact hsilent.imp fun _ hr hmr _ _ henv _ => idle_of_silent hh.serves henv hmr hr

section

variable {m : Method} {tbl : ClassTable} {c : Name} {env' : Env Ref} (hh : Typed host act (m.scope tbl c))
  (hm : m.MarkedIn tbl c) (henv : env.Holds (m.scope tbl c))

include hh hm henv

/-- **A careful run of a method is one that evaluates both operands.** -/
theorem LazyMethod.eager (h : LazyMethod host act (Idle host act) m env s t v env' s') :
    ExecMethod host act m env s t v env' s' := by
  obtain ⟨_, hmr, -⟩ := hm.result
  obtain ⟨hb, hr⟩ := h
  exact ⟨hb.eager hh hm.body henv, hr.eager hh (hb.holds hh hm.body henv) hmr⟩

theorem LazyMethod.mono (h : LazyMethod host act passes m env s t v env' s')
    (hpasses : EachRight (fun r => (m.scope tbl c).Marked r .boolean → ∀ env s, env.Holds (m.scope tbl c) →
      passes r env s → passes' r env s) (Stmt.expressionsAll m.body ++ m.result.parts)) :
    LazyMethod host act passes' m env s t v env' s' := by
  obtain ⟨_, hmr, -⟩ := hm.result
  obtain ⟨hb, hr⟩ := h
  obtain ⟨hpb, hpr⟩ := eachRight_append.1 hpasses
  have henv' := hb.holds hh hm.body henv
  exact ⟨hb.mono hh hm.body henv hpb, hr.mono hmr (hpr.imp fun _ h hmr s => h hmr _ s henv')⟩

/-- **Where right operands are silent it makes no difference to a method whether they are evaluated.** -/
theorem execMethod_iff_of_silent
    (hsilent : EachRight Expr.Silent (Stmt.expressionsAll m.body ++ m.result.parts)) :
    ExecMethod host act m env s t v env' s' ↔ LazyMethod host act anything m env s t v env' s' := by
  obtain ⟨_, hmr, -⟩ := hm.result
  obtain ⟨hsb, hsr⟩ := eachRight_append.1 hsilent
  constructor
  · rintro ⟨hb, hr⟩
    have hb := hb.careful hh hm.body henv hsb
    have hr := hr.careful hh (hb.holds hh hm.body henv) hmr hsr
    exact LazyMethod.mono hh hm henv ⟨hb, hr⟩ fun _ _ _ _ _ _ _ _ _ => trivial
  · intro h
    refine LazyMethod.eager hh hm henv (LazyMethod.mono hh hm henv h ?_)
    exact hsilent.imp fun _ hr hmr _ _ henv _ => idle_of_silent hh.serves henv hmr hr

end

end MiniJava.Execution
