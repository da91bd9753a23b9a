import MiniJava.Proofs.Assembly.Emission
import MiniJava.Proofs.Execution.Runs
import MiniJava.Proofs.Execution.Source
/-!
# The code of expressions

Wherever it stands, and whatever is on the stack already, the code of an expression puts the expression's value there
and changes nothing else on this side of the host (`reaches_of_eval`).  A run that halts and has come to such code does
just that: it splits into the evaluation of the expression and the run from behind the code (`eval_of_run`).
-/
namespace MiniJava.Execution

open Assembly

variable {Ref S : Type}

/-- **Slots that hold the variables of a method at work**: slot 0 the object, the others the variables.  Putting a value
into a slot changes the one variable that the slot is for. -/
structure Fits (f : Frame) (sc : Scope) (act : Activation Ref) (layout : Env Ref → List (Value Ref)) : Prop where
  cls : act.cls = f.cls
  self : ∀ c, sc.current = some c → ∃ o, act.object = some o ∧ ∀ env, (layout env)[0]? = some (.ref o)
  get : ∀ x n env, valueOf? x f.slots = some n → (layout env)[n]? = some (env x)
  put : ∀ x n env v, valueOf? x f.slots = some n → (layout env).set n v = layout (env.put x v)
  methods : Knows f.interfaces sc.classes

/-- A run splits into what `P` says, with some outcome, and a run from the place that the outcome leads to. -/
def Splits {α : Type} (host : Host Ref S) (code : List Instr) (k : Nat) (t : Trace Ref) (fin : Config Ref S)
    (P : Trace Ref → α → S → Prop) (place : α → S → Config Ref S) : Prop :=
  ∃ t₁ a s t₂ m, m ≤ k ∧ t = t₁ ++ t₂ ∧ P t₁ a s ∧ Run host code m (place a s) t₂ fin

variable {host : Host Ref S} {code : List Instr} {f : Frame} {sc : Scope} {act : Activation Ref}
  {layout : Env Ref → List (Value Ref)}

/-- A silent run to a place where the rest of a halting run splits. -/
theorem Splits.of_silent {α : Type} {k : Nat} {c c' fin : Config Ref S} {t : Trace Ref} {P : Trace Ref → α → S → Prop}
    {place : α → S → Config Ref S} {a : α} {s : S} (hsilent : Reaches host code c [] c')
    (hrun : Run host code k c t fin) (hfin : fin.Halted) (hplace : place a s = c') (hP : P [] a s) :
    Splits host code k t fin P place := by
  obtain ⟨m, hm, hrun⟩ := hsilent.past hrun hfin
  exact ⟨[], a, s, t, m, hm, rfl, hP, hplace ▸ hrun⟩

theorem append_append_cons {α : Type} (t₁ t₂ t₃ : List α) (e : α) :
    t₁ ++ (t₂ ++ e :: t₃) = t₁ ++ t₂ ++ [e] ++ t₃ := by
  rw [List.append_assoc, List.append_assoc]
  rfl

/-! ## Variables -/

theorem reaches_aload {slots : List (Value Ref)} {n : Nat} {r : Ref} {rest : List Instr} {stack : Stack Ref} {s : S}
    (h : slots[n]? = some (.ref r)) :
    Reaches host code ⟨.aload n :: rest, stack, slots, s⟩ [] ⟨rest, .ref r :: stack, slots, s⟩ :=
  Reaches.refl.next (fetch_eq_some.2 ⟨_, h, rfl, rfl⟩)

section

variable {x : Variable} {ty : Ty} {home : Home} {c rest : List Instr} {env : Env Ref} {s : S} {t : Trace Ref}
  {stack : Stack Ref}

theorem reaches_of_reads (hfits : Fits f sc act layout) (hx : sc.MarkedVariable x ty home) (henv : env.Suits sc)
    (hc : f.load x = .ok c) {v : Value Ref} {s' : S} (h : Reads host act env x s t v s') :
    Reaches host code ⟨c ++ rest, stack, layout env, s⟩ t ⟨rest, v :: stack, layout env, s'⟩ := by
  have hkind := h.isReference hx henv
  obtain ⟨hfinds⟩ := hx
  cases h with
  | method hhome =>
    cases hhome
    obtain ⟨n, hn, rfl⟩ := Frame.load_method_eq_ok.1 hc
    refine Reaches.refl.next ?_
    rw [effect_load]
    exact fetch_eq_some.2 ⟨_, hfits.get _ _ _ hn, hkind, rfl⟩
  | object hhome hty ho hp =>
    cases hhome
    cases hty
    cases Frame.load_object_eq_ok.1 hc
    cases hfinds with
    | object _ hcurrent _ =>
      obtain ⟨o, ho', hslot⟩ := hfits.self _ hcurrent
      cases ho.symm.trans ho'
      rw [hfits.cls] at hp ⊢
      exact (reaches_aload (hslot env)).perform rfl hp

theorem reads_of_run (hfits : Fits f sc act layout) (hx : sc.MarkedVariable x ty home) (hc : f.load x = .ok c) {k : Nat}
    {fin : Config Ref S} (hfin : fin.Halted) (hrun : Run host code k ⟨c ++ rest, stack, layout env, s⟩ t fin) :
    Splits host code k t fin (Reads host act env x s) fun v s' => ⟨rest, v :: stack, layout env, s'⟩ := by
  obtain ⟨hfinds⟩ := hx
  cases hfinds with
  | method hget =>
    obtain ⟨n, hn, rfl⟩ := Frame.load_method_eq_ok.1 hc
    obtain ⟨e, he⟩ := hrun.exists_effect hfin
    have he' := he
    rw [effect_load, fetch_eq_some, hfits.get _ _ _ hn] at he'
    obtain ⟨v, hv, -, rfl⟩ := he'
    cases hv
    exact .of_silent (Reaches.refl.next he) hrun hfin rfl (.method rfl)
  | object _ hcurrent _ =>
    cases Frame.load_object_eq_ok.1 hc
    obtain ⟨o, ho, hslot⟩ := hfits.self _ hcurrent
    obtain ⟨m, hm, hrun⟩ := (reaches_aload (hslot env)).past hrun hfin
    obtain ⟨out, s', t', m', hm', rfl, hp, hrun⟩ := hrun.past_perform hfin rfl
    obtain ⟨v, rfl, -⟩ := host.answer_eq hp rfl
    rw [← hfits.cls] at hp ⊢
    exact ⟨_, v, s', t', m', by omega, rfl, .object rfl rfl ho hp, hrun⟩

end

/-! ## Operators -/

section

variable {op : Op} {n n' : Nat} {c rest : List Instr} {stack : Stack Ref} {slots : List (Value Ref)} {s : S}
  (hcode : (definitions code).Nodup)

include hcode

theorem reaches_applyOp (hc : Frame.applyOp op n = .ok (c, n')) (hsuffix : c ++ rest <:+ code) {a b : BitVec 32} :
    Reaches host code ⟨c ++ rest, .int b :: .int a :: stack, slots, s⟩ []
      ⟨rest, .int (apply op a b) :: stack, slots, s⟩ := by
  cases op with
  | less =>
    simp only [Frame.applyOp, state_bind_eq_ok, state_pure_eq_ok] at hc
    obtain ⟨yes, _, -, no, _, -, done, _, -, rfl, -⟩ := hc
    have hyes := suffix_behind [_, _, _, _] hsuffix
    have hdone := suffix_behind [_, _, _] hyes
    by_cases hab : a.slt b
    · have hjump : effect slots (.ificmplt yes) (.int b :: .int a :: stack) = some (.jump yes stack) :=
        congrArg some (if_pos hab)
      rw [apply, hab]
      exact ((((Reaches.refl.jump hjump (seek_eq_some hcode hyes)).next rfl).next rfl).goto hcode hdone).next rfl
    · have hnext : effect slots (.ificmplt yes) (.int b :: .int a :: stack) = some (.next stack slots) :=
        congrArg some (if_neg hab)
      rw [apply, eq_false_of_ne_true hab]
      exact ((((Reaches.refl.next hnext).next rfl).next rfl).goto hcode hdone).next rfl
  | add | sub | mul | and =>
    obtain ⟨rfl, -⟩ := state_pure_eq_ok.1 hc
    exact Reaches.refl.next rfl

theorem reaches_not {nonzero done : Label} {a : BitVec 32}
    (hsuffix : [.ifne nonzero, .ldc 1, .goto done, .label nonzero, .ldc 0, .label done] ++ rest <:+ code) :
    Reaches host code
      ⟨[.ifne nonzero, .ldc 1, .goto done, .label nonzero, .ldc 0, .label done] ++ rest, .int a :: stack, slots, s⟩ []
      ⟨rest, .int (truth (a = 0)) :: stack, slots, s⟩ := by
  have hnonzero := suffix_behind [_, _, _] hsuffix
  have hdone := suffix_behind [_, _] hnonzero
  by_cases ha : a = 0
  · subst ha
    exact ((Reaches.refl.ifne_zero.next rfl).goto hcode hdone).next rfl
  · rw [decide_eq_false ha]
    exact (((Reaches.refl.ifne hcode ha hnonzero).next rfl).next rfl).next rfl

omit hcode

/-- The code of an operator is for two integers. -/
theorem operands_of_run (hc : Frame.applyOp op n = .ok (c, n')) {v w : Value Ref} {k : Nat} {t : Trace Ref}
    {fin : Config Ref S} (hrun : Run host code k ⟨c ++ rest, w :: v :: stack, slots, s⟩ t fin) (hfin : fin.Halted) :
    ∃ a b, v = .int a ∧ w = .int b := by
  have hshape : ∀ {g : BitVec 32 → BitVec 32 → Stack Ref → Option (Effect Ref)} {e : Effect Ref},
      popInt (fun b => popInt (fun a => g a b)) (w :: v :: stack) = some e → ∃ a b, v = .int a ∧ w = .int b := by
    intro g e he
    simp only [popInt_eq_some] at he
    obtain ⟨b, _, hw, a, _, hv, -⟩ := he
    cases hw
    cases hv
    exact ⟨a, b, rfl, rfl⟩
  cases op with
  | less =>
    simp only [Frame.applyOp, state_bind_eq_ok, state_pure_eq_ok] at hc
    obtain ⟨yes, _, -, no, _, -, done, _, -, rfl, -⟩ := hc
    obtain ⟨e, he⟩ := hrun.exists_effect hfin
    exact hshape he
  | add | sub | mul | and =>
    obtain ⟨rfl, -⟩ := state_pure_eq_ok.1 hc
    obtain ⟨e, he⟩ := hrun.exists_effect hfin
    exact hshape he

end

/-! ## Expressions -/

section

variable {env : Env Ref}

mutual

/-- **The code of an expression puts its value on the stack.** -/
theorem reaches_of_eval (hfits : Fits f sc act layout) (hcode : (definitions code).Nodup) (henv : env.Suits sc) :
    ∀ {e : Expr} {ty : Ty}, sc.Marked e ty → ∀ {c rest : List Instr} {n n' : Nat} {s s' : S} {t : Trace Ref}
    {v : Value Ref}, f.lowerExpr e n = .ok (c, n') → c ++ rest <:+ code → Eval host act env e s t v s' → ∀ stack,
    Reaches host code ⟨c ++ rest, stack, layout env, s⟩ t ⟨rest, v :: stack, layout env, s'⟩
  | .literal _ n, _, _, _, _, _, _, _, _, _, _, hc, _, .literal, _ => by
    simp only [Frame.lowerExpr, state_pure_eq_ok] at hc
    obtain ⟨rfl, -⟩ := hc
    rw [← BitVec.ofInt_natCast]
    exact Reaches.refl.next rfl
  | .bool _ b, _, _, _, _, _, _, _, _, _, _, hc, _, .bool, _ => by
    simp only [Frame.lowerExpr, state_pure_eq_ok] at hc
    obtain ⟨rfl, -⟩ := hc
    cases b <;> exact Reaches.refl.next rfl
  | .self _, _, .self hcurrent, _, _, _, _, _, _, _, _, hc, _, .self ho, _ => by
    simp only [Frame.lowerExpr, state_pure_eq_ok] at hc
    obtain ⟨rfl, -⟩ := hc
    obtain ⟨o, ho', hslot⟩ := hfits.self _ hcurrent
    cases ho.symm.trans ho'
    exact reaches_aload (hslot env)
  | .read _ x, _, .read hx, _, _, _, _, _, _, _, _, hc, _, .read hr, _ => by
    simp only [Frame.lowerExpr, state_lift_eq_ok] at hc
    exact reaches_of_reads hfits hx henv hc.1 hr
  | .binary _ l op r, _, .binary hml hmr, _, _, _, _, _, _, _, _, hc, hsuffix, .binary hl hr, _ => by
    simp only [Frame.lowerExpr, state_bind_eq_ok, state_pure_eq_ok] at hc
    obtain ⟨cl, _, hcl, cr, _, hcr, ca, _, hca, rfl, -⟩ := hc
    simp only [List.append_assoc] at hsuffix ⊢
    have hright := suffix_behind _ hsuffix
    have hl := reaches_of_eval hfits hcode henv hml hcl hsuffix hl
    have hr := reaches_of_eval hfits hcode henv hmr hcr hright hr
    exact ((hl _).trans (hr _)).silently (reaches_applyOp hcode hca (suffix_behind _ hright))
  | .not _ e, _, .not hme, _, _, _, _, _, _, _, _, hc, hsuffix, .not he, _ => by
    simp only [Frame.lowerExpr, state_bind_eq_ok, state_pure_eq_ok] at hc
    obtain ⟨_, _, -, _, _, -, ce, _, hce, rfl, -⟩ := hc
    rw [List.append_assoc] at hsuffix ⊢
    have he := reaches_of_eval hfits hcode henv hme hce hsuffix he
    exact (he _).silently (reaches_not hcode (suffix_behind _ hsuffix))
  | .index _ a i, _, .index hma hmi, _, _, _, _, _, _, _, _, hc, hsuffix, .index ha hi hp, _ => by
    simp only [Frame.lowerExpr, state_bind_eq_ok, state_pure_eq_ok] at hc
    obtain ⟨ca, _, hca, ci, _, hci, rfl, -⟩ := hc
    simp only [List.append_assoc] at hsuffix ⊢
    have ha := reaches_of_eval hfits hcode henv hma hca hsuffix ha
    have hi := reaches_of_eval hfits hcode henv hmi hci (suffix_behind _ hsuffix) hi
    exact (ha _).trans ((hi _).perform rfl hp)
  | .length _ e, _, .length hme, _, _, _, _, _, _, _, _, hc, hsuffix, .length he hp, _
  | .newArray _ e, _, .newArray hme, _, _, _, _, _, _, _, _, hc, hsuffix, .newArray he hp, _ => by
    simp only [Frame.lowerExpr, state_bind_eq_ok, state_pure_eq_ok] at hc
    obtain ⟨ce, _, hce, rfl, -⟩ := hc
    rw [List.append_assoc] at hsuffix ⊢
    exact (reaches_of_eval hfits hcode henv hme hce hsuffix he _).perform rfl hp
  | .newObject _ c, _, _, _, _, _, _, _, _, _, _, hc, _, .newObject hp, _ => by
    simp only [Frame.lowerExpr, state_pure_eq_ok] at hc
    obtain ⟨rfl, -⟩ := hc
    exact Reaches.refl.perform rfl hp
  | .call _ r m es _, _, @Scope.Marked.call _ _ _ _ _ _ sig tys hmr hm hmes hw, _, _, _, _, _, _, _, _, hc, hsuffix, h,
      _ => by
    simp only [Frame.lowerExpr, state_bind_eq_ok, state_pure_eq_ok, state_lift_eq_ok] at hc
    obtain ⟨_, _, ⟨hres, -⟩, ref, _, ⟨href, -⟩, cr, _, hcr, ces, _, hces, rfl, -⟩ := hc
    cases hres
    cases (hfits.methods _ _ _ hm).symm.trans href
    simp only [List.append_assoc] at hsuffix ⊢
    cases h with
    | call hr hes hp =>
      have hr := reaches_of_eval hfits hcode henv hmr hcr hsuffix hr
      obtain ⟨hkinds, hes⟩ := reaches_of_evalAll hfits hcode henv hmes hces (suffix_behind _ hsuffix) hes
      have hformals : tys.map Ty.isReference = sig.formals.map Ty.isReference :=
        map_eq_of_forall₂ _ _ hw fun _ _ => ClassTable.isReference_of_compatible
      refine ((hr _).trans (hes _)).perform (effect_invokevirtual ?_) hp
      rw [hkinds, hformals]
      exact (List.map_map ..).symm

theorem reaches_of_evalAll (hfits : Fits f sc act layout) (hcode : (definitions code).Nodup) (henv : env.Suits sc) :
    ∀ {es : List Expr} {tys : List Ty}, List.Forall₂ sc.Marked es tys →
    ∀ {c rest : List Instr} {n n' : Nat} {s s' : S} {t : Trace Ref} {vs : List (Value Ref)},
    f.lowerExprs es n = .ok (c, n') → c ++ rest <:+ code → EvalAll host act env es s t vs s' →
    vs.map Value.isReference = tys.map Ty.isReference ∧ ∀ stack,
      Reaches host code ⟨c ++ rest, stack, layout env, s⟩ t ⟨rest, vs.reverse ++ stack, layout env, s'⟩
  | [], _, .nil, _, _, _, _, _, _, _, _, hc, _, .nil => by
    simp only [Frame.lowerExprs, state_pure_eq_ok] at hc
    obtain ⟨rfl, -⟩ := hc
    exact ⟨rfl, fun _ => Reaches.refl⟩
  | e :: es, _, .cons hme hmes, _, _, _, _, _, _, _, _, hc, hsuffix, .cons he hes => by
    simp only [Frame.lowerExprs, state_bind_eq_ok, state_pure_eq_ok] at hc
    obtain ⟨ce, _, hce, ces, _, hces, rfl, -⟩ := hc
    rw [List.append_assoc] at hsuffix
    have hkind := he.isReference hme henv
    have he := reaches_of_eval hfits hcode henv hme hce hsuffix he
    obtain ⟨hkinds, hes⟩ := reaches_of_evalAll hfits hcode henv hmes hces (suffix_behind _ hsuffix) hes
    refine ⟨?_, fun stack => ?_⟩
    · rw [List.map_cons, List.map_cons, hkind, hkinds]
    · rw [List.append_assoc, List.reverse_cons, List.append_assoc]
      exact (he _).trans (hes _)

end

theorem EvalAll.length_eq : ∀ {es : List Expr} {s s' : S} {t : Trace Ref} {vs : List (Value Ref)},
    EvalAll host act env es s t vs s' → vs.length = es.length
  | [], _, _, _, _, .nil => rfl
  | _ :: _, _, _, _, _, .cons _ hes => congrArg Nat.succ hes.length_eq

mutual

/-- **A run through the code of an expression evaluates the expression.** -/
theorem eval_of_run (hfits : Fits f sc act layout) (hcode : (definitions code).Nodup)
    {fin : Config Ref S} (hfin : fin.Halted) : ∀ {e : Expr} {ty : Ty}, sc.Marked e ty →
    ∀ {c rest : List Instr} {n n' k : Nat} {s : S} {t : Trace Ref} {stack : Stack Ref},
    f.lowerExpr e n = .ok (c, n') → c ++ rest <:+ code →
    Run host code k ⟨c ++ rest, stack, layout env, s⟩ t fin →
    Splits host code k t fin (Eval host act env e s) fun v s' => ⟨rest, v :: stack, layout env, s'⟩
  | .literal _ n, _, _, _, _, _, _, _, _, _, _, hc, _, hrun => by
    simp only [Frame.lowerExpr, state_pure_eq_ok] at hc
    obtain ⟨rfl, -⟩ := hc
    refine .of_silent (Reaches.refl.next rfl) hrun hfin ?_ .literal
    rw [BitVec.ofInt_natCast]
    rfl
  | .bool _ b, _, _, _, _, _, _, _, _, _, _, hc, _, hrun => by
    simp only [Frame.lowerExpr, state_pure_eq_ok] at hc
    obtain ⟨rfl, -⟩ := hc
    refine .of_silent (Reaches.refl.next rfl) hrun hfin ?_ .bool
    cases b <;> rfl
  | .self _, _, .self hcurrent, _, _, _, _, _, _, _, _, hc, _, hrun => by
    simp only [Frame.lowerExpr, state_pure_eq_ok] at hc
    obtain ⟨rfl, -⟩ := hc
    obtain ⟨o, ho, hslot⟩ := hfits.self _ hcurrent
    exact .of_silent (reaches_aload (hslot env)) hrun hfin rfl (.self ho)
  | .read _ x, _, .read hx, _, _, _, _, _, _, _, _, hc, _, hrun => by
    simp only [Frame.lowerExpr, state_lift_eq_ok] at hc
    obtain ⟨t₁, v, s', t₂, m, hm, ht, hr, hrun⟩ := reads_of_run hfits hx hc.1 hfin hrun
    exact ⟨t₁, v, s', t₂, m, hm, ht, .read hr, hrun⟩
  | .binary _ l op r, _, .binary hml hmr, _, _, _, _, _, _, _, _, hc, hsuffix, hrun => by
    simp only [Frame.lowerExpr, state_bind_eq_ok, state_pure_eq_ok] at hc
    obtain ⟨cl, _, hcl, cr, _, hcr, ca, _, hca, rfl, -⟩ := hc
    simp only [List.append_assoc] at hsuffix hrun
    have hright := suffix_behind _ hsuffix
    obtain ⟨t₁, v, s₁, _, _, hm₁, rfl, hl, hrun⟩ := eval_of_run hfits hcode hfin hml hcl hsuffix hrun
    obtain ⟨t₂, w, s₂, t₃, _, hm₂, rfl, hr, hrun⟩ := eval_of_run hfits hcode hfin hmr hcr hright hrun
    obtain ⟨a, b, rfl, rfl⟩ := operands_of_run hca hrun hfin
    obtain ⟨m, hm₃, hrun⟩ := (reaches_applyOp hcode hca (suffix_behind _ hright)).past hrun hfin
    exact ⟨t₁ ++ t₂, _, s₂, t₃, m, by omega, (List.append_assoc ..).symm, .binary hl hr, hrun⟩
  | .not _ e, _, .not hme, _, _, _, _, _, _, _, _, hc, hsuffix, hrun => by
    simp only [Frame.lowerExpr, state_bind_eq_ok, state_pure_eq_ok] at hc
    obtain ⟨_, _, -, _, _, -, ce, _, hce, rfl, -⟩ := hc
    rw [List.append_assoc] at hsuffix hrun
    obtain ⟨t₁, v, s₁, t₂, _, hm₁, rfl, he, hrun⟩ := eval_of_run hfits hcode hfin hme hce hsuffix hrun
    obtain ⟨_, heffect⟩ := hrun.exists_effect hfin
    obtain ⟨a, _, hv, -⟩ := popInt_eq_some.1 heffect
    cases hv
    obtain ⟨m, hm₂, hrun⟩ := (reaches_not hcode (suffix_behind _ hsuffix)).past hrun hfin
    exact ⟨t₁, _, s₁, t₂, m, by omega, rfl, .not he, hrun⟩
  | .index _ a i, _, .index hma hmi, _, _, _, _, _, _, _, _, hc, hsuffix, hrun => by
    simp only [Frame.lowerExpr, state_bind_eq_ok, state_pure_eq_ok] at hc
    obtain ⟨ca, _, hca, ci, _, hci, rfl, -⟩ := hc
    simp only [List.append_assoc] at hsuffix hrun
    obtain ⟨t₁, v, s₁, _, _, hm₁, rfl, ha, hrun⟩ := eval_of_run hfits hcode hfin hma hca hsuffix hrun
    obtain ⟨t₂, w, s₂, _, _, hm₂, rfl, hi, hrun⟩ := eval_of_run hfits hcode hfin hmi hci (suffix_behind _ hsuffix) hrun
    obtain ⟨_, heffect⟩ := hrun.exists_effect hfin
    obtain ⟨n, _, hw, heffect⟩ := popInt_eq_some.1 heffect
    cases hw
    obtain ⟨array, _, hv, -⟩ := popRef_eq_some.1 heffect
    cases hv
    obtain ⟨out, s₃, t₃, m, hm₃, rfl, hp, hrun⟩ := hrun.past_perform hfin rfl
    obtain ⟨u, rfl, -⟩ := host.answer_eq hp rfl
    exact ⟨t₁ ++ t₂ ++ [_], u, s₃, t₃, m, by omega, append_append_cons .., .index ha hi hp, hrun⟩
  | .length _ e, _, .length hme, _, _, _, _, _, _, _, _, hc, hsuffix, hrun => by
    simp only [Frame.lowerExpr, state_bind_eq_ok, state_pure_eq_ok] at hc
    obtain ⟨ce, _, hce, rfl, -⟩ := hc
    rw [List.append_assoc] at hsuffix hrun
    obtain ⟨t₁, v, s₁, _, _, hm₁, rfl, he, hrun⟩ := eval_of_run hfits hcode hfin hme hce hsuffix hrun
    obtain ⟨_, heffect⟩ := hrun.exists_effect hfin
    obtain ⟨array, _, hv, -⟩ := popRef_eq_some.1 heffect
    cases hv
    obtain ⟨out, s₂, t₂, m, hm₂, rfl, hp, hrun⟩ := hrun.past_perform hfin rfl
    obtain ⟨u, rfl, -⟩ := host.answer_eq hp rfl
    exact ⟨t₁ ++ [_], u, s₂, t₂, m, by omega, List.append_cons .., .length he hp, hrun⟩
  | .newArray _ e, _, .newArray hme, _, _, _, _, _, _, _, _, hc, hsuffix, hrun => by
    simp only [Frame.lowerExpr, state_bind_eq_ok, state_pure_eq_ok] at hc
    obtain ⟨ce, _, hce, rfl, -⟩ := hc
    rw [List.append_assoc] at hsuffix hrun
    obtain ⟨t₁, v, s₁, _, _, hm₁, rfl, he, hrun⟩ := eval_of_run hfits hcode hfin hme hce hsuffix hrun
    obtain ⟨_, heffect⟩ := hrun.exists_effect hfin
    obtain ⟨n, _, hv, -⟩ := popInt_eq_some.1 heffect
    cases hv
    obtain ⟨out, s₂, t₂, m, hm₂, rfl, hp, hrun⟩ := hrun.past_perform hfin rfl
    obtain ⟨u, rfl, -⟩ := host.answer_eq hp rfl
    exact ⟨t₁ ++ [_], u, s₂, t₂, m, by omega, List.append_cons .., .newArray he hp, hrun⟩
  | .newObject _ c, _, _, _, _, _, _, _, _, _, _, hc, _, hrun => by
    simp only [Frame.lowerExpr, state_pure_eq_ok] at hc
    obtain ⟨rfl, -⟩ := hc
    obtain ⟨out, s', t', m, hm, rfl, hp, hrun⟩ := hrun.past_perform hfin rfl
    obtain ⟨u, rfl, -⟩ := host.answer_eq hp rfl
    exact ⟨[_], u, s', t', m, hm, rfl, .newObject hp, hrun⟩
  | .call _ r m es _, _, @Scope.Marked.call _ _ _ _ _ _ sig tys hmr hm hmes hw, _, _, _, _, _, _, _, _, hc, hsuffix,
      hrun => by
    simp only [Frame.lowerExpr, state_bind_eq_ok, state_pure_eq_ok, state_lift_eq_ok] at hc
    obtain ⟨_, _, ⟨hres, -⟩, ref, _, ⟨href, -⟩, cr, _, hcr, ces, _, hces, rfl, -⟩ := hc
    cases hres
    cases (hfits.methods _ _ _ hm).symm.trans href
    simp only [List.append_assoc] at hsuffix hrun
    obtain ⟨t₁, v, s₁, _, _, hm₁, rfl, hr, hrun⟩ := eval_of_run hfits hcode hfin hmr hcr hsuffix hrun
    obtain ⟨t₂, vs, s₂, _, _, hm₂, rfl, hes, hrun⟩ :=
      evalAll_of_run hfits hcode hfin hmes hces (suffix_behind _ hsuffix) hrun
    obtain ⟨_, heffect⟩ := hrun.exists_effect hfin
    have hlength : vs.length = (sig.formals.map Ty.storage).length := by
      rw [hes.length_eq, hmes.length_eq, hw.length_eq, List.length_map]
    obtain ⟨o, rfl, rfl⟩ := effect_invokevirtual_eq_some hlength heffect
    obtain ⟨out, s₃, t₃, m, hm₃, rfl, hp, hrun⟩ := hrun.past_perform hfin heffect
    obtain ⟨u, rfl, -⟩ := host.answer_eq hp rfl
    exact ⟨t₁ ++ t₂ ++ [_], u, s₃, t₃, m, by omega, append_append_cons .., .call hr hes hp, hrun⟩

theorem evalAll_of_run (hfits : Fits f sc act layout) (hcode : (definitions code).Nodup)
    {fin : Config Ref S} (hfin : fin.Halted) : ∀ {es : List Expr} {tys : List Ty}, List.Forall₂ sc.Marked es tys →
    ∀ {c rest : List Instr} {n n' k : Nat} {s : S} {t : Trace Ref} {stack : Stack Ref},
    f.lowerExprs es n = .ok (c, n') → c ++ rest <:+ code → Run host code k ⟨c ++ rest, stack, layout env, s⟩ t fin →
    Splits host code k t fin (EvalAll host act env es s) fun vs s' => ⟨rest, vs.reverse ++ stack, layout env, s'⟩
  | [], _, .nil, _, _, _, _, _, _, _, _, hc, _, hrun => by
    simp only [Frame.lowerExprs, state_pure_eq_ok] at hc
    obtain ⟨rfl, -⟩ := hc
    exact .of_silent Reaches.refl hrun hfin rfl .nil
  | e :: es, _, .cons hme hmes, _, _, _, _, _, _, _, _, hc, hsuffix, hrun => by
    simp only [Frame.lowerExprs, state_bind_eq_ok, state_pure_eq_ok] at hc
    obtain ⟨ce, _, hce, ces, _, hces, rfl, -⟩ := hc
    rw [List.append_assoc] at hsuffix hrun
    obtain ⟨t₁, v, s₁, _, _, hm₁, rfl, he, hrun⟩ := eval_of_run hfits hcode hfin hme hce hsuffix hrun
    obtain ⟨t₂, vs, s₂, t₃, m, hm₂, rfl, hes, hrun⟩ :=
      evalAll_of_run hfits hcode hfin hmes hces (suffix_behind _ hsuffix) hrun
    refine ⟨t₁ ++ t₂, v :: vs, s₂, t₃, m, by omega, (List.append_assoc ..).symm, .cons he hes, ?_⟩
    simp only [List.reverse_cons, List.append_assoc]
    exact hrun

end

end

end MiniJava.Execution
