import MiniJava.Proofs.Execution.Expressions
/-!
# The code of statements

The code of a statement leaves the stack as it was and the slots as the statement leaves the variables
(`reaches_of_exec`), and a run through it executes the statement (`exec_of_run`).  A run through a loop comes back to the
loop's label with fewer steps to go, which is what the induction there is on.
-/
namespace MiniJava.Execution

open Assembly

variable {Ref S : Type} {host : Host Ref S} {code : List Instr} {f : Frame} {sc : Scope} {act : Activation Ref}
  {layout : Env Ref → List (Value Ref)}

mutual

/-- **The code of a statement does what the statement does.** -/
theorem reaches_of_exec (hfits : Fits f sc act layout) (hcode : (definitions code).Nodup) :
    ∀ {st : Stmt} {env env' : Env Ref} {s s' : S} {t : Trace Ref}, Exec host act st env s t env' s' →
    sc.MarkedStmt st → env.Suits sc → ∀ {c rest : List Instr} {n n' : Nat}, f.lowerStmt st n = .ok (c, n') →
    c ++ rest <:+ code → ∀ stack,
    Reaches host code ⟨c ++ rest, stack, layout env, s⟩ t ⟨rest, stack, layout env', s'⟩
  | _, _, _, _, _, _, .block h, hmarked, henv, _, _, _, _, hc, hsuffix, stack => by
    obtain ⟨hmb⟩ := hmarked
    simp only [Frame.lowerStmt] at hc
    exact reaches_of_execAll hfits hcode h hmb henv hc hsuffix stack
  | _, _, _, _, _, _, .iteTrue he ha h, hmarked, henv, _, _, _, _, hc, hsuffix, stack => by
    cases hmarked with
    | ite hmc hmy hmn =>
      simp only [Frame.lowerStmt, state_bind_eq_ok, state_pure_eq_ok] at hc
      obtain ⟨yes, _, -, no, _, -, done, _, -, cc, _, hcc, cn, _, hcn, cy, _, hcy, rfl, -⟩ := hc
      simp only [List.append_assoc, List.cons_append, List.nil_append] at hsuffix ⊢
      have hno := suffix_behind [_, _] (suffix_behind _ hsuffix)
      have hyes := suffix_behind [_] (suffix_behind _ hno)
      have hbranch := suffix_behind [_] hyes
      have hdone := suffix_behind [_] (suffix_behind _ hbranch)
      have he := reaches_of_eval hfits hcode henv hmc hcc hsuffix he stack
      have h := reaches_of_exec hfits hcode h hmy henv hcy hbranch stack
      exact (he.ifne hcode ha hyes).label.trans (h.goto hcode hdone).label
  | _, _, _, _, _, _, .iteFalse he h, hmarked, henv, _, _, _, _, hc, hsuffix, stack => by
    cases hmarked with
    | ite hmc hmy hmn =>
      simp only [Frame.lowerStmt, state_bind_eq_ok, state_pure_eq_ok] at hc
      obtain ⟨yes, _, -, no, _, -, done, _, -, cc, _, hcc, cn, _, hcn, cy, _, hcy, rfl, -⟩ := hc
      simp only [List.append_assoc, List.cons_append, List.nil_append] at hsuffix ⊢
      have hno := suffix_behind [_, _] (suffix_behind _ hsuffix)
      have hdone := suffix_behind [_] (suffix_behind _ (suffix_behind [_, _] (suffix_behind _ hno)))
      have he := reaches_of_eval hfits hcode henv hmc hcc hsuffix he stack
      have h := reaches_of_exec hfits hcode h hmn henv hcn hno stack
      exact he.ifne_zero.label.trans (h.goto hcode hdone).label
  | _, _, _, _, _, _, .loop he ha hb h, hmarked, henv, _, _, _, _, hc, hsuffix, stack => by
    have hloop := hmarked
    have hcloop := hc
    cases hmarked with
    | loop hmc hmb =>
      simp only [Frame.lowerStmt, state_bind_eq_ok, state_pure_eq_ok] at hc
      obtain ⟨test, _, -, done, _, -, cc, _, hcc, cb, _, hcb, rfl, -⟩ := hc
      have h := reaches_of_exec hfits hcode h hloop (hb.suits hmb henv) hcloop hsuffix stack
      simp only [List.append_assoc, List.cons_append, List.nil_append] at hsuffix h ⊢
      have hcondition := suffix_behind [_] hsuffix
      have hbody := suffix_behind [_] (suffix_behind _ hcondition)
      have he := reaches_of_eval hfits hcode henv hmc hcc hcondition he stack
      have hb := reaches_of_exec hfits hcode hb hmb henv hcb hbody stack
      exact ((Reaches.refl.label.trans he).ifeq_nonzero ha).trans ((hb.goto hcode hsuffix).trans h)
  | _, _, _, _, _, _, .loopDone he, hmarked, henv, _, _, _, _, hc, hsuffix, stack => by
    cases hmarked with
    | loop hmc hmb =>
      simp only [Frame.lowerStmt, state_bind_eq_ok, state_pure_eq_ok] at hc
      obtain ⟨test, _, -, done, _, -, cc, _, hcc, cb, _, hcb, rfl, -⟩ := hc
      simp only [List.append_assoc, List.cons_append, List.nil_append] at hsuffix ⊢
      have hcondition := suffix_behind [_] hsuffix
      have hdone := suffix_behind [_] (suffix_behind _ (suffix_behind [_] (suffix_behind _ hcondition)))
      have he := reaches_of_eval hfits hcode henv hmc hcc hcondition he stack
      exact ((Reaches.refl.label.trans he).ifeq hcode hdone).label
  | _, _, _, _, _, _, .print he hp, hmarked, henv, _, _, _, _, hc, hsuffix, stack => by
    cases hmarked with
    | print hme =>
      simp only [Frame.lowerStmt, state_bind_eq_ok, state_pure_eq_ok] at hc
      obtain ⟨ce, _, hce, rfl, -⟩ := hc
      rw [List.append_assoc] at hsuffix ⊢
      exact (reaches_of_eval hfits hcode henv hme hce hsuffix he stack).perform rfl hp
  | _, env, _, _, _, _, .assignMethod hhome he, hmarked, henv, _, _, _, _, hc, hsuffix, stack => by
    cases hmarked with
    | assign hx hme =>
      have hkind := he.isReference hme henv
      obtain ⟨-⟩ := hx
      cases hhome
      simp only [Frame.lowerStmt, state_bind_eq_ok, state_pure_eq_ok, state_lift_eq_ok, Prod.exists,
        Frame.store_method_eq_ok] at hc
      obtain ⟨_, _, _, ⟨⟨n, hn, rfl, rfl⟩, -⟩, ce, _, hce, rfl, -⟩ := hc
      rw [List.nil_append, List.append_assoc] at hsuffix ⊢
      have he := reaches_of_eval hfits hcode henv hme hce hsuffix he stack
      have hslot := (List.getElem?_eq_some_iff.1 (hfits.get _ _ env hn)).1
      refine he.next ?_
      rw [effect_store, ← hfits.put _ _ _ _ hn]
      exact keep_eq_some.2 ⟨_, _, rfl, hkind, hslot, rfl⟩
  | _, env, _, _, _, _, .assignObject hhome hty ho he hp, hmarked, henv, _, _, _, _, hc, hsuffix, stack => by
    cases hmarked with
    | assign hx hme =>
      have hkind := he.isReference hme henv
      obtain ⟨hfinds⟩ := hx
      cases hhome
      cases hty
      simp only [Frame.lowerStmt, state_bind_eq_ok, state_pure_eq_ok, state_lift_eq_ok, Prod.exists,
        Frame.store_object_eq_ok] at hc
      obtain ⟨_, _, _, ⟨⟨rfl, rfl⟩, -⟩, ce, _, hce, rfl, -⟩ := hc
      simp only [List.append_assoc] at hsuffix ⊢
      cases hfinds with
      | object _ hcurrent _ =>
        obtain ⟨o, ho', hslot⟩ := hfits.self _ hcurrent
        cases ho.symm.trans ho'
        have he := reaches_of_eval hfits hcode henv hme hce (suffix_behind _ hsuffix) he
        rw [hfits.cls] at hp ⊢
        exact ((reaches_aload (hslot env)).trans (he _)).perform (effect_putfield_eq_some.2 ⟨hkind, rfl⟩) hp
  | _, _, _, _, _, _, .store hr hi he hp, hmarked, henv, _, _, _, _, hc, hsuffix, stack => by
    cases hmarked with
    | store hx hmi hme =>
      simp only [Frame.lowerStmt, state_bind_eq_ok, state_pure_eq_ok, state_lift_eq_ok] at hc
      obtain ⟨cx, _, ⟨hcx, -⟩, ci, _, hci, ce, _, hce, rfl, -⟩ := hc
      rw [Frame.loadArray_of_marked hx] at hcx
      simp only [List.append_assoc] at hsuffix ⊢
      have hindex := suffix_behind _ hsuffix
      have hi := reaches_of_eval hfits hcode henv hmi hci hindex hi
      have he := reaches_of_eval hfits hcode henv hme hce (suffix_behind _ hindex) he
      exact (reaches_of_reads hfits hx henv hcx hr).trans ((hi _).trans ((he _).perform rfl hp))

theorem reaches_of_execAll (hfits : Fits f sc act layout) (hcode : (definitions code).Nodup) :
    ∀ {sts : List Stmt} {env env' : Env Ref} {s s' : S} {t : Trace Ref}, ExecAll host act sts env s t env' s' →
    (∀ st ∈ sts, sc.MarkedStmt st) → env.Suits sc → ∀ {c rest : List Instr} {n n' : Nat},
    f.lowerStmts sts n = .ok (c, n') → c ++ rest <:+ code → ∀ stack,
    Reaches host code ⟨c ++ rest, stack, layout env, s⟩ t ⟨rest, stack, layout env', s'⟩
  | _, _, _, _, _, _, .nil, _, _, _, _, _, _, hc, _, _ => by
    simp only [Frame.lowerStmts, state_pure_eq_ok] at hc
    obtain ⟨rfl, -⟩ := hc
    exact Reaches.refl
  | _, _, _, _, _, _, .cons h hs, hmarked, henv, _, _, _, _, hc, hsuffix, stack => by
    obtain ⟨hm, hms⟩ := List.forall_mem_cons.1 hmarked
    simp only [Frame.lowerStmts, state_bind_eq_ok, state_pure_eq_ok] at hc
    obtain ⟨c₁, _, hc₁, c₂, _, hc₂, rfl, -⟩ := hc
    rw [List.append_assoc] at hsuffix ⊢
    have hsuits := h.suits hm henv
    have h := reaches_of_exec hfits hcode h hm henv hc₁ hsuffix stack
    exact h.trans (reaches_of_execAll hfits hcode hs hms hsuits hc₂ (suffix_behind _ hsuffix) stack)

end

/-! ## Runs through the code -/

section

variable {fin : Config Ref S} {c : Expr} {body : Stmt} {cc cb rest : List Instr} {test done : Label} {n n' : Nat}
  {stack : Stack Ref}

theorem exec_loop_of_run (hfits : Fits f sc act layout) (hcode : (definitions code).Nodup) (hfin : fin.Halted)
    (hmc : sc.Marked c .boolean) (hcc : f.lowerExpr c n = .ok (cc, n'))
    (hsuffix : .label test :: (cc ++ .ifeq done :: (cb ++ .goto test :: .label done :: rest)) <:+ code)
    (hbody : ∀ {k : Nat} {env : Env Ref} {s : S} {t : Trace Ref},
      Run host code k ⟨cb ++ .goto test :: .label done :: rest, stack, layout env, s⟩ t fin →
      Splits host code k t fin (Exec host act body env s)
        fun env' s' => ⟨.goto test :: .label done :: rest, stack, layout env', s'⟩) :
    ∀ {k : Nat} {env : Env Ref} {s : S} {t : Trace Ref},
      Run host code k ⟨.label test :: (cc ++ .ifeq done :: (cb ++ .goto test :: .label done :: rest)), stack, layout env,
        s⟩ t fin →
      Splits host code k t fin (Exec host act (.loop c body) env s)
        fun env' s' => ⟨rest, stack, layout env', s'⟩ := by
  have hcondition := suffix_behind [_] hsuffix
  have hdone := suffix_behind [_] (suffix_behind _ (suffix_behind [_] (suffix_behind _ hcondition)))
  intro k
  -- The induction is on the steps to go: those left at the end of a round are fewer, by the label at least.
  induction k using Nat.strongRecOn with
  | ind k ih =>
    intro env s t hrun
    obtain ⟨k₁, hk₁, hrun⟩ := Run.past (.step (.next rfl) .refl) rfl hrun hfin
    obtain ⟨t₁, v, s₁, _, k₂, hk₂, rfl, hc, hrun⟩ := eval_of_run hfits hcode hfin hmc hcc hcondition hrun
    obtain ⟨_, heffect⟩ := hrun.exists_effect hfin
    obtain ⟨a, _, hv, -⟩ := popInt_eq_some.1 heffect
    cases hv
    by_cases ha : a = 0
    · subst ha
      obtain ⟨k₃, hk₃, hrun⟩ := (Reaches.refl.ifeq hcode hdone).label.past hrun hfin
      exact ⟨t₁, env, s₁, _, k₃, by omega, rfl, .loopDone hc, hrun⟩
    · obtain ⟨k₃, hk₃, hrun⟩ := (Reaches.refl.ifeq_nonzero ha).past hrun hfin
      obtain ⟨t₂, env₁, s₂, _, k₄, hk₄, rfl, hb, hrun⟩ := hbody hrun
      obtain ⟨k₅, hk₅, hrun⟩ := (Reaches.refl.goto hcode hsuffix).past hrun hfin
      obtain ⟨t₃, env₂, s₃, t₄, k₆, hk₆, rfl, h, hrun⟩ := ih k₅ (by omega) hrun
      exact ⟨t₁ ++ t₂ ++ t₃, env₂, s₃, t₄, k₆, by omega, by simp only [List.append_assoc], .loop hc ha hb h, hrun⟩

end

mutual

/-- **A run through the code of a statement executes the statement.** -/
theorem exec_of_run (hfits : Fits f sc act layout) (hcode : (definitions code).Nodup) {fin : Config Ref S}
    (hfin : fin.Halted) : ∀ {st : Stmt}, sc.MarkedStmt st → ∀ {c rest : List Instr} {n n' k : Nat} {env : Env Ref} {s : S}
    {t : Trace Ref} {stack : Stack Ref}, f.lowerStmt st n = .ok (c, n') → c ++ rest <:+ code →
    Run host code k ⟨c ++ rest, stack, layout env, s⟩ t fin →
    Splits host code k t fin (Exec host act st env s) fun env' s' => ⟨rest, stack, layout env', s'⟩
  | .block body, .block hmb, _, _, _, _, _, _, _, _, _, hc, hsuffix, hrun => by
    simp only [Frame.lowerStmt] at hc
    obtain ⟨t₁, env', s', t₂, m, hm, rfl, h, hrun⟩ := execAll_of_run hfits hcode hfin hmb hc hsuffix hrun
    exact ⟨t₁, env', s', t₂, m, hm, rfl, .block h, hrun⟩
  | .ite c yes no, .ite hmc hmy hmn, _, _, _, _, _, env, _, _, _, hc, hsuffix, hrun => by
    simp only [Frame.lowerStmt, state_bind_eq_ok, state_pure_eq_ok] at hc
    obtain ⟨yes, _, -, no, _, -, done, _, -, cc, _, hcc, cn, _, hcn, cy, _, hcy, rfl, -⟩ := hc
    simp only [List.append_assoc, List.cons_append, List.nil_append] at hsuffix hrun
    have hno := suffix_behind [_, _] (suffix_behind _ hsuffix)
    have hyes := suffix_behind [_] (suffix_behind _ hno)
    have hbranch := suffix_behind [_] hyes
    have hdone := suffix_behind [_] (suffix_behind _ hbranch)
    obtain ⟨t₁, v, s₁, _, k₁, hk₁, rfl, he, hrun⟩ := eval_of_run hfits hcode hfin hmc hcc hsuffix hrun
    obtain ⟨_, heffect⟩ := hrun.exists_effect hfin
    obtain ⟨a, _, hv, -⟩ := popInt_eq_some.1 heffect
    cases hv
    by_cases ha : a = 0
    · subst ha
      obtain ⟨k₂, hk₂, hrun⟩ := Reaches.refl.ifne_zero.label.past hrun hfin
      obtain ⟨t₂, env', s₂, t₃, k₃, hk₃, rfl, h, hrun⟩ := exec_of_run hfits hcode hfin hmn hcn hno hrun
      obtain ⟨k₄, hk₄, hrun⟩ := (Reaches.refl.goto hcode hdone).label.past hrun hfin
      exact ⟨t₁ ++ t₂, env', s₂, t₃, k₄, by omega, (List.append_assoc ..).symm, .iteFalse he h, hrun⟩
    · obtain ⟨k₂, hk₂, hrun⟩ := (Reaches.refl.ifne hcode ha hyes).label.past hrun hfin
      obtain ⟨t₂, env', s₂, t₃, k₃, hk₃, rfl, h, hrun⟩ := exec_of_run hfits hcode hfin hmy hcy hbranch hrun
      obtain ⟨k₄, hk₄, hrun⟩ := (Reaches.refl.goto hcode hdone).label.past hrun hfin
      exact ⟨t₁ ++ t₂, env', s₂, t₃, k₄, by omega, (List.append_assoc ..).symm, .iteTrue he ha h, hrun⟩
  | .loop c body, .loop hmc hmb, _, _, _, _, _, _, _, _, _, hc, hsuffix, hrun => by
    simp only [Frame.lowerStmt, state_bind_eq_ok, state_pure_eq_ok] at hc
    obtain ⟨test, _, -, done, _, -, cc, _, hcc, cb, _, hcb, rfl, -⟩ := hc
    simp only [List.append_assoc, List.cons_append, List.nil_append] at hsuffix hrun
    have hbody := suffix_behind [_] (suffix_behind _ (suffix_behind [_] hsuffix))
    exact exec_loop_of_run hfits hcode hfin hmc hcc hsuffix (exec_of_run hfits hcode hfin hmb hcb hbody) hrun
  | .print e, .print hme, _, _, _, _, _, env, _, _, _, hc, hsuffix, hrun => by
    simp only [Frame.lowerStmt, state_bind_eq_ok, state_pure_eq_ok] at hc
    obtain ⟨ce, _, hce, rfl, -⟩ := hc
    rw [List.append_assoc] at hsuffix hrun
    obtain ⟨t₁, v, s₁, _, _, hm₁, rfl, he, hrun⟩ := eval_of_run hfits hcode hfin hme hce hsuffix hrun
    obtain ⟨_, heffect⟩ := hrun.exists_effect hfin
    obtain ⟨a, _, hv, -⟩ := popInt_eq_some.1 heffect
    cases hv
    obtain ⟨out, s₂, t₂, m, hm₂, rfl, hp, hrun⟩ := hrun.past_perform hfin rfl
    cases host.answer_nil hp rfl
    exact ⟨t₁ ++ [_], env, s₂, t₂, m, by omega, List.append_cons .., .print he hp, hrun⟩
  | .assign _ e, .assign ⟨hfinds⟩ hme, _, _, _, _, _, env, _, _, _, hc, hsuffix, hrun => by
    cases hfinds with
    | method hget =>
      simp only [Frame.lowerStmt, state_bind_eq_ok, state_pure_eq_ok, state_lift_eq_ok, Prod.exists,
        Frame.store_method_eq_ok] at hc
      obtain ⟨_, _, _, ⟨⟨n, hn, rfl, rfl⟩, -⟩, ce, _, hce, rfl, -⟩ := hc
      rw [List.nil_append, List.append_assoc] at hsuffix hrun
      obtain ⟨t₁, v, s₁, t₂, _, hm₁, rfl, he, hrun⟩ := eval_of_run hfits hcode hfin hme hce hsuffix hrun
      obtain ⟨eff, heffect⟩ := hrun.exists_effect hfin
      have heffect' := heffect
      rw [effect_store, keep_eq_some] at heffect'
      obtain ⟨_, _, hv, -, -, rfl⟩ := heffect'
      cases hv
      obtain ⟨m, hm₂, hrun⟩ := (Reaches.refl.next heffect).past hrun hfin
      rw [hfits.put _ _ _ _ hn] at hrun
      exact ⟨t₁, _, s₁, t₂, m, by omega, rfl, .assignMethod rfl he, hrun⟩
    | object _ hcurrent _ =>
      simp only [Frame.lowerStmt, state_bind_eq_ok, state_pure_eq_ok, state_lift_eq_ok, Prod.exists,
        Frame.store_object_eq_ok] at hc
      obtain ⟨_, _, _, ⟨⟨rfl, rfl⟩, -⟩, ce, _, hce, rfl, -⟩ := hc
      simp only [List.append_assoc] at hsuffix hrun
      obtain ⟨o, ho, hslot⟩ := hfits.self _ hcurrent
      obtain ⟨_, hm₀, hrun⟩ := (reaches_aload (hslot env)).past hrun hfin
      obtain ⟨t₁, v, s₁, _, _, hm₁, rfl, he, hrun⟩ := eval_of_run hfits hcode hfin hme hce (suffix_behind _ hsuffix) hrun
      obtain ⟨_, heffect⟩ := hrun.exists_effect hfin
      obtain ⟨-, rfl⟩ := effect_putfield_eq_some.1 heffect
      obtain ⟨out, s₂, t₂, m, hm₂, rfl, hp, hrun⟩ := hrun.past_perform hfin heffect
      cases host.answer_nil hp rfl
      rw [← hfits.cls] at hp ⊢
      exact ⟨t₁ ++ [_], env, s₂, t₂, m, by omega, List.append_cons .., .assignObject rfl rfl ho he hp, hrun⟩
  | .store x i e, .store hx hmi hme, _, _, _, _, _, env, _, _, _, hc, hsuffix, hrun => by
    simp only [Frame.lowerStmt, state_bind_eq_ok, state_pure_eq_ok, state_lift_eq_ok] at hc
    obtain ⟨cx, _, ⟨hcx, -⟩, ci, _, hci, ce, _, hce, rfl, -⟩ := hc
    rw [Frame.loadArray_of_marked hx] at hcx
    simp only [List.append_assoc] at hsuffix hrun
    have hindex := suffix_behind _ hsuffix
    obtain ⟨t₁, u, s₁, _, _, hm₁, rfl, hr, hrun⟩ := reads_of_run hfits hx hcx hfin hrun
    obtain ⟨t₂, v, s₂, _, _, hm₂, rfl, hi, hrun⟩ := eval_of_run hfits hcode hfin hmi hci hindex hrun
    obtain ⟨t₃, w, s₃, _, _, hm₃, rfl, he, hrun⟩ :=
      eval_of_run hfits hcode hfin hme hce (suffix_behind _ hindex) hrun
    obtain ⟨_, heffect⟩ := hrun.exists_effect hfin
    obtain ⟨a, _, hw, heffect⟩ := popInt_eq_some.1 heffect
    cases hw
    obtain ⟨n, _, hv, heffect⟩ := popInt_eq_some.1 heffect
    cases hv
    obtain ⟨array, _, hu, -⟩ := popRef_eq_some.1 heffect
    cases hu
    obtain ⟨out, s₄, t₄, m, hm₄, rfl, hp, hrun⟩ := hrun.past_perform hfin rfl
    cases host.answer_nil hp rfl
    refine ⟨t₁ ++ t₂ ++ t₃ ++ [_], env, s₄, t₄, m, by omega, ?_, .store hr hi he hp, hrun⟩
    simp only [List.append_assoc, List.singleton_append]

theorem execAll_of_run (hfits : Fits f sc act layout) (hcode : (definitions code).Nodup) {fin : Config Ref S}
    (hfin : fin.Halted) : ∀ {sts : List Stmt}, (∀ st ∈ sts, sc.MarkedStmt st) → ∀ {c rest : List Instr} {n n' k : Nat}
    {env : Env Ref} {s : S} {t : Trace Ref} {stack : Stack Ref}, f.lowerStmts sts n = .ok (c, n') → c ++ rest <:+ code →
    Run host code k ⟨c ++ rest, stack, layout env, s⟩ t fin →
    Splits host code k t fin (ExecAll host act sts env s) fun env' s' => ⟨rest, stack, layout env', s'⟩
  | [], _, _, _, _, _, _, _, _, _, _, hc, _, hrun => by
    simp only [Frame.lowerStmts, state_pure_eq_ok] at hc
    obtain ⟨rfl, -⟩ := hc
    exact .of_silent Reaches.refl hrun hfin rfl .nil
  | st :: sts, hmarked, _, _, _, _, _, _, _, _, _, hc, hsuffix, hrun => by
    obtain ⟨hm, hms⟩ := List.forall_mem_cons.1 hmarked
    simp only [Frame.lowerStmts, state_bind_eq_ok, state_pure_eq_ok] at hc
    obtain ⟨c₁, _, hc₁, c₂, _, hc₂, rfl, -⟩ := hc
    rw [List.append_assoc] at hsuffix hrun
    obtain ⟨t₁, env₁, s₁, _, _, hm₁, rfl, h, hrun⟩ := exec_of_run hfits hcode hfin hm hc₁ hsuffix hrun
    obtain ⟨t₂, env₂, s₂, t₃, m, hm₂, rfl, hs, hrun⟩ :=
      execAll_of_run hfits hcode hfin hms hc₂ (suffix_behind _ hsuffix) hrun
    exact ⟨t₁ ++ t₂, env₂, s₂, t₃, m, by omega, (List.append_assoc ..).symm, .cons h hs, hrun⟩

end

end MiniJava.Execution
