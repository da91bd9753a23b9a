import MiniJava.Proofs.Assembly.Parts
import MiniJava.Proofs.Execution.Statements
/-!
# Listings do what programs do

The slots of a method at work hold the object, the formals and the locals in order (`Method.slotValues`).  From such
slots and an empty stack, the code of a method does what the method does and returns its result, and the code of each
expression in it computes that expression, on its own and where it stands (`Method.RealizedBy`).  The listings that an
elaborated program is lowered to realize all its methods and its main class (`lowering_preserves_meaning`).
-/
namespace MiniJava

open Assembly Execution

variable {Ref S : Type}

/-! ## What code is to do -/

/-- **What the code of an expression is to do.**  The code is `part`, which stands before `behind` in `whole`. -/
structure Expr.ComputedBy (host : Execution.Host Ref S) (act : Activation Ref) (env : Env Ref) (slots : List (Value Ref))
    (whole part behind : List Instr) (e : Expr) : Prop where
  /-- On its own it puts the value of the expression on the stack and does nothing else, or does not come to its end. -/
  alone : ∀ stack s t fin, (Reaches host part ⟨part, stack, slots, s⟩ t fin ∧ fin.Halted) ↔
    ∃ v s', Eval host act env e s t v s' ∧ fin = ⟨[], v :: stack, slots, s'⟩
  /-- Where it stands it does the same. -/
  pushes : ∀ stack s t v s', Eval host act env e s t v s' →
    Reaches host whole ⟨part ++ behind, stack, slots, s⟩ t ⟨behind, v :: stack, slots, s'⟩
  /-- Where it stands a run that halts has evaluated the expression when it leaves the code behind. -/
  splits : ∀ stack s t fin, Reaches host whole ⟨part ++ behind, stack, slots, s⟩ t fin → fin.Halted →
    ∃ t₁ v s₁ t₂, t = t₁ ++ t₂ ∧ Eval host act env e s t₁ v s₁ ∧
      Reaches host whole ⟨behind, v :: stack, slots, s₁⟩ t₂ fin

/-- The slots of a method that works for the object `o`. -/
def Method.slotValues (m : Method) (o : Ref) (env : Env Ref) : List (Value Ref) :=
  .ref o :: ((m.formals ++ m.locals).map (·.name.val)).map env

/-- The variables of the method hold values of the kinds that they are declared for. -/
def Method.Suits (m : Method) (env : Env Ref) : Prop :=
  ∀ d ∈ m.formals ++ m.locals, (env d.name.val).isReference = d.ty.val.isReference

/-- **What the listing of a method is to do.**  Its code is made in the frame `f`. -/
structure Method.RealizedBy (host : Execution.Host Ref S) (f : Frame) (m : Method) (l : MethodListing) : Prop where
  slots : ∀ (o : Ref) (env : Env Ref), (m.slotValues o env).length = l.slots
  /-- The code comes to a return where the method comes to its result, with the same requests on the way, with the
  variables in their slots and with the result as the value that it returns. -/
  returns_iff : ∀ o env s t v slots s', m.Suits env →
    ((∃ fin, Reaches host l.code ⟨l.code, [], m.slotValues o env, s⟩ t fin ∧ fin.Returns v ∧ fin.slots = slots ∧
        fin.state = s') ↔
      ∃ env', ExecMethod host ⟨f.cls, some o⟩ m env s t v env' s' ∧ slots = m.slotValues o env')
  /-- There is no other way for the code to come to an end. -/
  halts : ∀ o env s t fin, Reaches host l.code ⟨l.code, [], m.slotValues o env, s⟩ t fin → fin.Halted →
    ∃ v, fin.Returns v
  /-- The code holds that of each expression, which computes the expression wherever it stands. -/
  expressions : ∀ e ∈ Stmt.expressionsAll m.body ++ m.result.parts, f.Contains l.code e ∧ ∀ part behind n n',
    f.lowerExpr e n = .ok (part, n') → part ++ behind <:+ l.code → ∀ o env, m.Suits env →
      e.ComputedBy host ⟨f.cls, some o⟩ env (m.slotValues o env) l.code part behind

/-- **What the code of the main class is to do.**  It has no object and no variables, so that its slots may hold
anything. -/
structure MainClass.RealizedBy (host : Execution.Host Ref S) (f : Frame) (main : MainClass) (code : List Instr) :
    Prop where
  runs : ∀ env slots s t fin, (Reaches host code ⟨code, [], slots, s⟩ t fin ∧ fin.Halted) ↔
    ∃ env' s', Exec host ⟨f.cls, none⟩ main.body env s t env' s' ∧ fin = ⟨[], [], slots, s'⟩
  expressions : ∀ e ∈ main.body.expressions, f.Contains code e ∧ ∀ part behind n n',
    f.lowerExpr e n = .ok (part, n') → part ++ behind <:+ code → ∀ env slots,
      e.ComputedBy host ⟨f.cls, none⟩ env slots code part behind

namespace Execution

variable {host : Execution.Host Ref S} {code : List Instr} {f : Frame} {sc : Scope} {act : Activation Ref}
  {layout : Env Ref → List (Value Ref)} {interfaces : Table Name Interface} {t : ClassTable} {c : Name}

/-! ## Slots -/

theorem fits_main (hi : Knows interfaces t) (slots : List (Value Ref)) :
    Fits ⟨interfaces, c, []⟩ t.mainScope ⟨c, none⟩ fun _ => slots where
  cls := rfl
  self := fun _ h => (by cases h)
  get := fun _ _ _ h => (by cases h)
  put := fun _ _ _ _ h => (by cases h)
  methods := hi

/-- Putting a value into the place of a name among others is putting it into the variable of that name. -/
theorem set_map_env {env : Env Ref} {x : Name} {v : Value Ref} : ∀ {names : List Name} {i : Nat}, names.Nodup →
    names[i]? = some x → (names.map env).set i v = names.map (env.put x v)
  | [], _, _, h => by cases h
  | y :: names, 0, hn, h => by
    cases h
    have hrest : ∀ z ∈ names, env z = env.put x v z := fun z hz =>
      (if_neg fun hzx : z = x => (List.nodup_cons.1 hn).1 (hzx ▸ hz)).symm
    have hhead : env.put x v x = v := if_pos rfl
    rw [List.map_cons, List.map_cons, List.set_cons_zero, List.map_congr_left hrest, hhead]
  | y :: names, i + 1, hn, h => by
    obtain ⟨hy, hn⟩ := List.nodup_cons.1 hn
    have hyx : y ≠ x := fun hyx => hy (hyx ▸ List.mem_of_getElem? h)
    have hhead : env.put x v y = env y := if_neg hyx
    rw [List.map_cons, List.map_cons, List.set_cons_succ, set_map_env hn h, hhead]

theorem fits_method (hi : Knows interfaces t) {m : Method}
    (hn : ((m.formals ++ m.locals).map (·.name.val)).Nodup) (o : Ref) :
    Fits ⟨interfaces, c, slotsOf m⟩ (m.scope t c) ⟨c, some o⟩ (m.slotValues o) where
  cls := rfl
  self := fun _ _ => ⟨o, rfl, fun _ => rfl⟩
  get := fun x n env h => by
    obtain ⟨hpos, hx⟩ := (valueOf?_slotsOf hn).1 h
    obtain ⟨i, rfl⟩ := Nat.exists_eq_add_of_le' hpos
    rw [Method.slotValues, List.getElem?_cons_succ, List.getElem?_map]
    exact congrArg (Option.map env) hx
  put := fun x n env v h => by
    obtain ⟨hpos, hx⟩ := (valueOf?_slotsOf hn).1 h
    obtain ⟨i, rfl⟩ := Nat.exists_eq_add_of_le' hpos
    rw [Nat.add_sub_cancel] at hx
    rw [Method.slotValues, List.set_cons_succ, set_map_env hn hx]
    rfl
  methods := hi

theorem suits_scope {m : Method} {env : Env Ref} (h : m.Suits env) : env.Suits (m.scope t c) := by
  intro x ty hx
  have hmem : (x, ty) ∈ m.variables := by
    rw [Method.scope, Table.get?_ofList] at hx
    exact List.mem_reverse.1 (mem_of_valueOf?_eq_some hx)
  obtain ⟨d, hd, heq⟩ := List.mem_map.1 hmem
  cases heq
  exact h d hd

/-! ## Parts and wholes -/

/-- The code of a marked expression computes it. -/
theorem computedBy (hfits : Fits f sc act layout) (hcode : (definitions code).Nodup) {env : Env Ref}
    (henv : env.Suits sc) {e : Expr} {ty : Ty} (he : sc.Marked e ty) {part behind : List Instr} {n n' : Nat}
    (hc : f.lowerExpr e n = .ok (part, n')) (hsuffix : part ++ behind <:+ code) :
    e.ComputedBy host act env (layout env) code part behind where
  alone := fun stack s t fin => by
    have halone := (Frame.lowerExpr_ownLabels hc).nodup_definitions
    have hwhole : part ++ [] <:+ part := ⟨[], List.append_nil part⟩
    constructor
    · rintro ⟨⟨k, hrun⟩, hfin⟩
      have hrun : Run host part k ⟨part ++ [], stack, layout env, s⟩ t fin := by
        rw [List.append_nil]
        exact hrun
      obtain ⟨t₁, v, s₁, t₂, m, -, rfl, h, hrun⟩ := eval_of_run hfits halone hfin he hc hwhole hrun
      obtain ⟨rfl, rfl⟩ := hrun.of_halted (.inl rfl)
      rw [List.append_nil]
      exact ⟨v, s₁, h, rfl⟩
    · rintro ⟨v, s', h, rfl⟩
      have hreaches := reaches_of_eval hfits halone henv he hc hwhole h stack
      rw [List.append_nil] at hreaches
      exact ⟨hreaches, .inl rfl⟩
  pushes := fun stack s t v s' h => reaches_of_eval hfits hcode henv he hc hsuffix h stack
  splits := fun stack s t fin ⟨k, hrun⟩ hfin => by
    obtain ⟨t₁, v, s₁, t₂, m, -, ht, h, hrun⟩ := eval_of_run hfits hcode hfin he hc hsuffix hrun
    exact ⟨t₁, v, s₁, t₂, ht, h, m, hrun⟩

theorem realizedBy_main (hi : Knows interfaces t) {main : MainClass} (hm : t.mainScope.MarkedStmt main.body)
    {n n' : Nat} (hc : Frame.lowerStmt ⟨interfaces, main.name.val, []⟩ main.body n = .ok (code, n')) :
    main.RealizedBy host ⟨interfaces, main.name.val, []⟩ code where
  runs := fun env slots s u fin => by
    have hfits := fits_main (c := main.name.val) hi slots
    have hcode := (Frame.lowerStmt_ownLabels hc).nodup_definitions
    have hwhole : code ++ [] <:+ code := ⟨[], List.append_nil code⟩
    constructor
    · rintro ⟨⟨k, hrun⟩, hfin⟩
      have hrun : Run host code k ⟨code ++ [], [], slots, s⟩ u fin := by
        rw [List.append_nil]
        exact hrun
      have hsplits : Splits host code k u fin (Exec host ⟨main.name.val, none⟩ main.body env s)
        fun _ s' => ⟨[], [], slots, s'⟩ := exec_of_run hfits hcode hfin hm hc hwhole hrun
      obtain ⟨t₁, env', s₁, t₂, m, -, rfl, h, hrun⟩ := hsplits
      obtain ⟨rfl, rfl⟩ := hrun.of_halted (.inl rfl)
      rw [List.append_nil]
      exact ⟨env', s₁, h, rfl⟩
    · rintro ⟨env', s', h, rfl⟩
      have henv : env.Suits t.mainScope := fun _ _ hx => by cases hx
      have hreaches := reaches_of_exec hfits hcode h hm henv hc hwhole []
      rw [List.append_nil] at hreaches
      exact ⟨hreaches, .inl rfl⟩
  expressions := fun e he => by
    obtain ⟨ty, hme⟩ := hm.expressions e he
    refine ⟨Frame.lowerStmt_parts hc (List.infix_refl code) e he, fun part behind n n' hpart hplace env slots => ?_⟩
    have henv : env.Suits t.mainScope := fun _ _ hx => by cases hx
    exact computedBy (fits_main hi slots) (Frame.lowerStmt_ownLabels hc).nodup_definitions henv hme hpart hplace

section

variable {m : Method} {l : MethodListing} {env : Env Ref} {o : Ref} {s : S} {u : Trace Ref}

/-- The code of a method, taken apart. -/
theorem exists_parts_of_lists (hl : Lists interfaces c m l) : ∃ cb cr n₁ n₂ n₃,
    Frame.lowerStmts ⟨interfaces, c, slotsOf m⟩ m.body n₁ = .ok (cb, n₂) ∧
      Frame.lowerExpr ⟨interfaces, c, slotsOf m⟩ m.result n₂ = .ok (cr, n₃) ∧
      cb ++ (cr ++ [if m.returns.val.isReference then .areturn else .ireturn]) = l.code ∧
      (definitions l.code).Nodup := by
  obtain ⟨n, n', hc⟩ := hl.code
  have hcode := (Frame.lowerBody_ownLabels hc).nodup_definitions
  simp only [Frame.lowerBody, state_bind_eq_ok, state_pure_eq_ok] at hc
  obtain ⟨cb, _, hcb, cr, _, hcr, hwhole, -⟩ := hc
  rw [List.append_assoc] at hwhole
  exact ⟨cb, cr, _, _, _, hcb, hcr, hwhole, hcode⟩

theorem returns_of_execMethod (hi : Knows interfaces t) (hm : m.MarkedIn t c) (hl : Lists interfaces c m l)
    (hsuits : m.Suits env) {v : Value Ref} {env' : Env Ref} {s' : S}
    (h : ExecMethod host ⟨c, some o⟩ m env s u v env' s') :
    ∃ fin, Reaches host l.code ⟨l.code, [], m.slotValues o env, s⟩ u fin ∧ fin.Returns v ∧
      fin.slots = m.slotValues o env' ∧ fin.state = s' := by
  obtain ⟨cb, cr, _, _, _, hcb, hcr, hwhole, hcode⟩ := exists_parts_of_lists hl
  obtain ⟨ty, hmr, hcompatible⟩ := hm.result
  have hfits := fits_method (c := c) hi hm.distinct o
  have henv := suits_scope (t := t) (c := c) hsuits
  have hbody : cb ++ (cr ++ [if m.returns.val.isReference then .areturn else .ireturn]) <:+ l.code := ⟨[], hwhole⟩
  obtain ⟨hb, hr⟩ := h
  have henv' := hb.suits hm.body henv
  have hkind := (hr.isReference hmr henv').trans (ClassTable.isReference_of_compatible hcompatible)
  have hb := reaches_of_execAll hfits hcode hb hm.body henv hcb hbody []
  have hr := reaches_of_eval hfits hcode henv' hmr hcr (suffix_behind _ hbody) hr []
  rw [hwhole] at hb
  refine ⟨_, hb.trans hr, ⟨_, _, rfl, ?_⟩, rfl, rfl⟩
  rw [effect_return]
  exact pop_eq_some.2 ⟨v, [], rfl, hkind, rfl⟩

theorem execMethod_of_reaches (hi : Knows interfaces t) (hm : m.MarkedIn t c) (hl : Lists interfaces c m l)
    {fin : Config Ref S} (h : Reaches host l.code ⟨l.code, [], m.slotValues o env, s⟩ u fin) (hfin : fin.Halted) :
    ∃ v env', ExecMethod host ⟨c, some o⟩ m env s u v env' fin.state ∧ fin.Returns v ∧
      fin.slots = m.slotValues o env' := by
  obtain ⟨cb, cr, _, _, _, hcb, hcr, hwhole, hcode⟩ := exists_parts_of_lists hl
  obtain ⟨ty, hmr, hcompatible⟩ := hm.result
  have hfits := fits_method (c := c) hi hm.distinct o
  have hbody : cb ++ (cr ++ [if m.returns.val.isReference then .areturn else .ireturn]) <:+ l.code := ⟨[], hwhole⟩
  obtain ⟨k, hrun⟩ := h
  have hrun : Run host l.code k ⟨cb ++ (cr ++ [if m.returns.val.isReference then .areturn else .ireturn]), [],
      m.slotValues o env, s⟩ u fin := by
    rw [hwhole]
    exact hrun
  obtain ⟨t₁, env', s₁, _, _, -, rfl, hb, hrun⟩ := execAll_of_run hfits hcode hfin hm.body hcb hbody hrun
  obtain ⟨t₂, v, s₂, t₃, _, -, rfl, hr, hrun⟩ :=
    eval_of_run hfits hcode hfin hmr hcr (suffix_behind _ hbody) hrun
  obtain ⟨e, heffect⟩ := hrun.exists_effect hfin
  have hfinish := heffect
  rw [effect_return, finishWith] at hfinish
  obtain ⟨_, _, hv, -, he⟩ := pop_eq_some.1 hfinish
  cases hv
  cases he
  obtain ⟨rfl, rfl⟩ := hrun.of_halted (.inr ⟨v, _, _, rfl, heffect⟩)
  rw [List.append_nil]
  exact ⟨v, env', ⟨hb, hr⟩, ⟨_, _, rfl, heffect⟩, rfl⟩

end

theorem realizedBy_method (hi : Knows interfaces t) {m : Method} (hm : m.MarkedIn t c) {l : MethodListing}
    (hl : Lists interfaces c m l) : m.RealizedBy host ⟨interfaces, c, slotsOf m⟩ l where
  slots := fun o env => by
    rw [hl.slots, Method.slotValues, slotsOf, numberFrom_of_nodup hm.distinct]
    simp only [List.length_cons, List.length_map, List.length_zipIdx]
  returns_iff := fun o env s u v slots s' hsuits => by
    constructor
    · rintro ⟨fin, hreaches, hreturns, rfl, rfl⟩
      obtain ⟨v', env', h, hreturns', hslots⟩ := execMethod_of_reaches hi hm hl hreaches (.inr ⟨v, hreturns⟩)
      cases hreturns.unique hreturns'
      exact ⟨env', h, hslots⟩
    · rintro ⟨env', h, rfl⟩
      exact returns_of_execMethod hi hm hl hsuits h
  halts := fun o env s u fin hreaches hfin => by
    obtain ⟨v, _, -, hreturns, -⟩ := execMethod_of_reaches hi hm hl hreaches hfin
    exact ⟨v, hreturns⟩
  expressions := fun e he => by
    obtain ⟨n, n', hc⟩ := hl.code
    obtain ⟨ty, hme⟩ := ClassTable.expressions_of_markedIn hm e he
    refine ⟨Frame.lowerBody_parts hc e he, fun part behind n n' hpart hplace o env hsuits => ?_⟩
    exact computedBy (fits_method hi hm.distinct o) (Frame.lowerBody_ownLabels hc).nodup_definitions
      (suits_scope hsuits) hme hpart hplace

end Execution

/-- **Lowering to stack-machine code keeps what programs mean.**  Whatever the program, once it has been elaborated its
listings hold code for the main class and for each method of each class, and with every host this code does what the
main class and the methods do: it comes to an end exactly where they do, after the same requests in the same order, with
the same values in the variables' slots, and with the value of the result. -/
theorem lowering_preserves_meaning (host : Execution.Host Ref S) (p : Program) (dump : Dump) (e : Elaborated)
    (h : (p.elaborate dump).result = .ok e) : ∃ interfaces code classes,
    interfacesOf e.program = .ok interfaces ∧
      (lowerProgram e.program).result = .ok (.main e.program.main.name.val code :: classes.map .cls) ∧
      e.program.main.RealizedBy host ⟨interfaces, e.program.main.name.val, []⟩ code ∧
      List.Forall₂ (fun (c : ClassDecl) (l : ClassListing) => l.name = c.name.val ∧
          List.Forall₂ (fun m l => m.RealizedBy host ⟨interfaces, c.name.val, slotsOf m⟩ l) c.methods l.methods)
        e.program.classes classes := by
  obtain ⟨hsound, -⟩ := elaborate_sound h
  obtain ⟨ls, hls⟩ := lowerProgram_total hsound
  obtain ⟨interfaces, code, n, n', classes, hi, hmain, hclasses, rfl⟩ := lowerProgram_sound hls
  obtain ⟨_, hi', hknows⟩ := hsound.declarations.interfacesOf_eq_ok
  cases hi.symm.trans hi'
  refine ⟨interfaces, code, classes, hi, hls, realizedBy_main hknows hsound.marked.main hmain, ?_⟩
  refine ((List.forall₂_and_left _ _).2 ⟨hsound.marked.methods, hclasses⟩).imp fun c l ⟨hms, hname, hl⟩ => ⟨hname, ?_⟩
  exact ((List.forall₂_and_left _ _).2 ⟨hms, hl⟩).imp fun m l ⟨hm, hl⟩ => realizedBy_method hknows hm hl

/-- A host that answers with zeros and with the only reference that it knows. -/
def Sample.host : Execution.Host Unit Unit where
  performs r _ out _ := out = r.answers.map fun reference => if reference then .ref () else .int 0
  kinds := by
    rintro r _ _ _ rfl
    exact Execution.map_isReference_answers () 0 r.answers

theorem lowering_preserves_meaning_on_sample : ∃ e, (Sample.program.elaborate ⟨true, true⟩).result = .ok e ∧
    ∃ interfaces code classes, interfacesOf e.program = .ok interfaces ∧
      (lowerProgram e.program).result = .ok (.main e.program.main.name.val code :: classes.map .cls) ∧
      e.program.main.RealizedBy Sample.host ⟨interfaces, e.program.main.name.val, []⟩ code ∧
      List.Forall₂ (fun (c : ClassDecl) (l : ClassListing) => l.name = c.name.val ∧
          List.Forall₂ (fun m l => m.RealizedBy Sample.host ⟨interfaces, c.name.val, slotsOf m⟩ l) c.methods l.methods)
        e.program.classes classes :=
  ⟨_, rfl, lowering_preserves_meaning Sample.host Sample.program ⟨true, true⟩ _ rfl⟩

end MiniJava
