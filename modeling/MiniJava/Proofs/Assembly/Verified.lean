import MiniJava.Proofs.Assembly.Emission
import MiniJava.Proofs.Assembly.StackTypes
/-!
# Listings are well typed on the stack

The code of an expression puts one value of the expression's type on whatever stack there is
(`Frame.lowerExpr_flows`), and the code of a statement leaves the stack as it was (`Frame.lowerStmt_flows`).  Hence the
stack has a type at each place of a listing, as a verifier of stack-machine code wants it (`listings_verified`).
-/
namespace MiniJava

open Assembly

/-- The object and the variables of a method of the class `c`, in the order of their slots. -/
def Method.slotTypes (m : Method) (c : Name) : List Storage :=
  .object c :: (m.formals ++ m.locals).map (·.ty.val.storage)

namespace Assembly

/-- **The slots of a frame hold what the scope says of the variables**, and the first of them the object. -/
structure Frame.Types (f : Frame) (sc : Scope) (cx : StackContext) : Prop where
  classes : cx.classes = sc.classes
  self : ∀ c, sc.current = some c → f.cls = c ∧ cx.slots[0]? = some (.object c)
  slots : ∀ x ty n, sc.locals.get? x = some ty → valueOf? x f.slots = some n → cx.slots[n]? = some ty.storage
  methods : Knows f.interfaces sc.classes

theorem types_main {interfaces : Table Name Interface} {t : ClassTable} {c : Name} (hi : Knows interfaces t) :
    Frame.Types ⟨interfaces, c, []⟩ t.mainScope ⟨t, [], none⟩ where
  classes := rfl
  self := nofun
  slots := nofun
  methods := hi

theorem types_method {interfaces : Table Name Interface} {t : ClassTable} {c : Name} {m : Method}
    (hi : Knows interfaces t) (hn : ((m.formals ++ m.locals).map (·.name.val)).Nodup) (returns : Option Storage) :
    Frame.Types ⟨interfaces, c, slotsOf m⟩ (m.scope t c) ⟨t, m.slotTypes c, returns⟩ where
  classes := rfl
  self := fun _ hc => by cases hc; exact ⟨rfl, rfl⟩
  slots := fun x ty n hx hslot => by
    obtain ⟨hpos, hname⟩ := (valueOf?_slotsOf hn).1 hslot
    obtain ⟨k, rfl⟩ := Nat.exists_eq_add_of_le' hpos
    rw [Nat.add_sub_cancel, List.getElem?_map, Option.map_eq_some_iff] at hname
    obtain ⟨d, hd, rfl⟩ := hname
    have hmem : (d.name.val, ty) ∈ m.variables := by
      rw [Method.scope, Table.get?_ofList] at hx
      exact List.mem_reverse.1 (mem_of_valueOf?_eq_some hx)
    obtain ⟨d', hd', heq⟩ := List.mem_map.1 hmem
    obtain ⟨hname, rfl⟩ := Prod.mk.inj heq
    cases List.inj_on_of_nodup_map hn hd' (List.mem_of_getElem? hd) hname
    rw [Method.slotTypes, List.getElem?_cons_succ, List.getElem?_map, hd]
    rfl
  methods := hi

namespace Frame

open StackContext

variable {f : Frame} {sc : Scope} {cx : StackContext} {labels : Label → StackType} {σ : StackType}

/-! ## Variables and operators -/

theorem load_flows (hf : f.Types sc cx) {x : Variable} {ty : Ty} {home : Home} {code : List Instr}
    (h : sc.MarkedVariable x ty home) (hc : f.load x = .ok code) : cx.Flows labels code σ (ty.storage :: σ) := by
  obtain ⟨hx⟩ := h
  cases hx with
  | method hget =>
    obtain ⟨n, hn, rfl⟩ := load_method_eq_ok.1 hc
    have htypes : cx.Types (if ty.isReference then .aload n else .iload n) σ (ty.storage :: σ) :=
      .load (hf.slots _ _ _ hget hn)
    cases hty : ty.isReference <;> rw [hty] at htypes <;> exact .single htypes rfl rfl
  | @object c _ _ hcurrent hfield =>
    cases load_object_eq_ok.1 hc
    obtain ⟨rfl, hself⟩ := hf.self _ hcurrent
    rw [← hf.classes] at hfield
    exact .next (.aload hself rfl) rfl rfl (.single (.getfield hfield) rfl rfl)

/-- What is around the code of a value makes an assignment of it. -/
theorem store_flows (hf : f.Types sc cx) {x : Variable} {ty : Ty} {home : Home} {before after : List Instr}
    (h : sc.MarkedVariable x ty home) (hc : f.store x = .ok (before, after)) : ∃ σ₁,
      (∀ labels, cx.Flows labels before σ σ₁) ∧ ∀ labels, cx.Flows labels after (ty.storage :: σ₁) σ := by
  obtain ⟨hx⟩ := h
  cases hx with
  | method hget =>
    obtain ⟨n, hn, rfl, rfl⟩ := store_method_eq_ok.1 hc
    have htypes : cx.Types (if ty.isReference then .astore n else .istore n) (ty.storage :: σ) σ :=
      .store (hf.slots _ _ _ hget hn)
    refine ⟨σ, fun _ => .nil, fun _ => ?_⟩
    cases hty : ty.isReference <;> rw [hty] at htypes <;> exact .single htypes rfl rfl
  | @object c _ _ hcurrent hfield =>
    obtain ⟨rfl, rfl⟩ := store_object_eq_ok.1 hc
    obtain ⟨rfl, hself⟩ := hf.self _ hcurrent
    rw [← hf.classes] at hfield
    exact ⟨_, fun _ => .single (.aload hself rfl) rfl rfl, fun _ => .single (.putfield hfield) rfl rfl⟩

theorem applyOp_flows {op : Op} {needs : (Label → StackType) → Prop} {code : List Instr} {n n' : Nat} (h : applyOp op n = .ok (code, n')) :
    cx.FlowsWithin needs n n' code (op.operandType.storage :: op.operandType.storage :: σ)
      (op.resultType.storage :: σ) := by
  cases op with
  | add | sub | mul | and =>
    obtain ⟨rfl, rfl⟩ := state_pure_eq_ok.1 h
    exact .plain fun _ _ => .single (.compute (by simp)) rfl rfl
  | less =>
    simp only [applyOp, state_bind_eq_ok, state_pure_eq_ok, freshLabel_eq_ok] at h
    obtain ⟨_, _, ⟨rfl, rfl⟩, _, _, ⟨rfl, rfl⟩, _, _, ⟨rfl, rfl⟩, rfl, rfl⟩ := h
    refine .reserve (τ := σ) (.reserve (τ := σ) (.reserve (τ := .int :: σ) (.plain ?_)))
    rintro labels ⟨⟨⟨-, hyes⟩, hno⟩, hdone⟩
    have hyesCode : cx.Flows labels [.label ⟨n⟩, .ldc 1, .goto ⟨n + 1 + 1⟩, .label ⟨n + 1 + 1⟩] σ (.int :: σ) :=
      .label hyes (.next .ldc rfl rfl (.goto hdone (.label hdone .nil)))
    exact .branch .ificmplt rfl rfl hyes (.label hno (.next .ldc rfl rfl (.goto hdone hyesCode)))

/-! ## Expressions -/

mutual

/-- **The code of an expression puts a value of its type on the stack**, whatever stack there is. -/
theorem lowerExpr_flows (hf : f.Types sc cx) : ∀ {e : Expr} {ty : Ty} {needs : (Label → StackType) → Prop} {code : List Instr}
    {n n' : Nat} {σ : StackType}, sc.Marked e ty → f.lowerExpr e n = .ok (code, n') →
      cx.FlowsWithin needs n n' code σ (ty.storage :: σ)
  | .literal _ _, _, _, _, _, _, _, .literal, h | .bool _ _, _, _, _, _, _, _, .bool, h => by
    obtain ⟨rfl, rfl⟩ := state_pure_eq_ok.1 h
    exact .plain fun _ _ => .single .ldc rfl rfl
  | .self _, _, _, _, _, _, _, .self hcurrent, h => by
    obtain ⟨rfl, rfl⟩ := state_pure_eq_ok.1 h
    obtain ⟨-, hself⟩ := hf.self _ hcurrent
    exact .plain fun _ _ => .single (.aload hself rfl) rfl rfl
  | .newObject _ c, _, _, _, _, _, _, .newObject hc, h => by
    obtain ⟨rfl, rfl⟩ := state_pure_eq_ok.1 h
    rw [← hf.classes] at hc
    exact .plain fun _ _ => .single (.new hc) rfl rfl
  | .read _ x, _, _, _, _, _, _, .read hx, h => by
    obtain ⟨hc, rfl⟩ := state_lift_eq_ok.1 h
    exact .plain fun _ _ => load_flows hf hx hc
  | .binary _ l op r, _, _, _, _, _, _, .binary hl hr, h => by
    simp only [lowerExpr, state_bind_eq_ok, state_pure_eq_ok] at h
    obtain ⟨cl, _, hcl, cr, _, hcr, ca, _, hca, rfl, rfl⟩ := h
    exact ((lowerExpr_flows hf hl hcl).append (lowerExpr_flows hf hr hcr)).append (applyOp_flows hca)
  | .not _ e, _, _, _, n, _, σ, .not he, h => by
    simp only [lowerExpr, state_bind_eq_ok, state_pure_eq_ok, freshLabel_eq_ok] at h
    obtain ⟨_, _, ⟨rfl, rfl⟩, _, _, ⟨rfl, rfl⟩, ce, _, hce, rfl, rfl⟩ := h
    refine .reserve (τ := σ) (.reserve (τ := .int :: σ) ?_)
    refine (lowerExpr_flows hf he hce).append (.plain ?_)
    rintro labels ⟨⟨-, hnonzero⟩, hdone⟩
    have hzero : cx.Flows labels [.label ⟨n⟩, .ldc 0, .label ⟨n + 1⟩] σ (.int :: σ) :=
      .label hnonzero (.next .ldc rfl rfl (.label hdone .nil))
    exact .branch .ifne rfl rfl hnonzero (.next .ldc rfl rfl (.goto hdone hzero))
  | .index _ a i, _, _, _, _, _, _, .index ha hi, h => by
    simp only [lowerExpr, state_bind_eq_ok, state_pure_eq_ok] at h
    obtain ⟨ca, _, hca, ci, _, hci, rfl, rfl⟩ := h
    exact ((lowerExpr_flows hf ha hca).append (lowerExpr_flows hf hi hci)).append
      (.plain fun _ _ => .single .iaload rfl rfl)
  | .length _ e, _, _, _, _, _, _, .length he, h => by
    simp only [lowerExpr, state_bind_eq_ok, state_pure_eq_ok] at h
    obtain ⟨ce, _, hce, rfl, rfl⟩ := h
    exact (lowerExpr_flows hf he hce).append (.plain fun _ _ => .single .arraylength rfl rfl)
  | .newArray _ e, _, _, _, _, _, _, .newArray he, h => by
    simp only [lowerExpr, state_bind_eq_ok, state_pure_eq_ok] at h
    obtain ⟨ce, _, hce, rfl, rfl⟩ := h
    exact (lowerExpr_flows hf he hce).append (.plain fun _ _ => .single .newarray rfl rfl)
  | .call _ r m es _, _, _, _, _, _, σ, @Scope.Marked.call _ _ _ _ _ c sig tys hr hm hes hfits, h => by
    simp only [lowerExpr, state_bind_eq_ok, state_pure_eq_ok, state_lift_eq_ok] at h
    obtain ⟨_, _, ⟨hres, rfl⟩, ref, _, ⟨href, rfl⟩, cr, _, hcr, ces, _, hces, rfl, rfl⟩ := h
    cases hres
    rw [hf.methods _ _ _ hm] at href
    cases href
    rw [← hf.classes] at hm hfits
    have harguments : List.Forall₂ cx.classes.Fits (tys.map Ty.storage) (sig.formals.map Ty.storage) :=
      List.forall₂_map_left_iff.2 (List.forall₂_map_right_iff.2 (hfits.imp fun _ _ => ClassTable.fits_of_compatible))
    have hcall : cx.Types (.invokevirtual ⟨c, m.val, sig.formals.map Ty.storage, sig.returns.storage⟩)
        ((tys.map Ty.storage).reverse ++ .object c :: σ) (sig.returns.storage :: σ) := .invokevirtual hm rfl harguments
    exact ((lowerExpr_flows hf hr hcr).append (lowerExprs_flows hf hes hces)).append
      (.plain fun _ _ => .single hcall rfl rfl)

/-- The values of arguments end up on the stack with the last one on top. -/
theorem lowerExprs_flows (hf : f.Types sc cx) : ∀ {es : List Expr} {tys : List Ty} {needs : (Label → StackType) → Prop}
    {code : List Instr} {n n' : Nat} {σ : StackType}, List.Forall₂ sc.Marked es tys → f.lowerExprs es n = .ok (code, n') →
      cx.FlowsWithin needs n n' code σ ((tys.map Ty.storage).reverse ++ σ)
  | [], _, _, _, _, _, _, .nil, h => by
    obtain ⟨rfl, rfl⟩ := state_pure_eq_ok.1 h
    exact .plain fun _ _ => .nil
  | e :: es, _, _, _, _, _, _, .cons he hes, h => by
    simp only [lowerExprs, state_bind_eq_ok, state_pure_eq_ok] at h
    obtain ⟨ce, _, hce, ces, _, hces, rfl, rfl⟩ := h
    rw [List.map_cons, List.reverse_cons, List.append_assoc]
    exact (lowerExpr_flows hf he hce).append (lowerExprs_flows hf hes hces)

end

/-! ## Statements -/

mutual

/-- **The code of a statement leaves the stack as it was.** -/
theorem lowerStmt_flows (hf : f.Types sc cx) : ∀ {s : Stmt} {needs : (Label → StackType) → Prop} {code : List Instr} {n n' : Nat}
    {σ : StackType}, sc.MarkedStmt s → f.lowerStmt s n = .ok (code, n') → cx.FlowsWithin needs n n' code σ σ
  | .block body, _, _, _, _, _, .block hb, h => by
    rw [lowerStmt] at h
    exact lowerStmts_flows hf hb h
  | .ite c yes no, _, _, n, _, σ, .ite hc hy hn, h => by
    simp only [lowerStmt, state_bind_eq_ok, state_pure_eq_ok, freshLabel_eq_ok] at h
    obtain ⟨_, _, ⟨rfl, rfl⟩, _, _, ⟨rfl, rfl⟩, _, _, ⟨rfl, rfl⟩, cc, _, hcc, cn, _, hcn, cy, _, hcy, rfl, rfl⟩ := h
    refine .reserve (τ := σ) (.reserve (τ := σ) (.reserve (τ := σ) ?_))
    refine (((((lowerExpr_flows hf hc hcc).append (.plain ?_)).append (lowerStmt_flows (σ := σ) hf hn hcn)).append
      (.plain ?_)).append (lowerStmt_flows (σ := σ) hf hy hcy)).append (.plain ?_)
    · rintro labels ⟨⟨⟨-, hyesLabel⟩, hnoLabel⟩, -⟩
      exact .branch .ifne rfl rfl hyesLabel (.label hnoLabel .nil)
    · rintro labels ⟨⟨⟨-, hyesLabel⟩, -⟩, hdone⟩
      exact .goto hdone (.label hyesLabel .nil)
    · rintro labels ⟨-, hdone⟩
      exact .goto hdone (.label hdone .nil)
  | .loop c body, _, _, n, _, σ, .loop hc hb, h => by
    simp only [lowerStmt, state_bind_eq_ok, state_pure_eq_ok, freshLabel_eq_ok] at h
    obtain ⟨_, _, ⟨rfl, rfl⟩, _, _, ⟨rfl, rfl⟩, cc, _, hcc, cb, _, hcb, rfl, rfl⟩ := h
    refine .reserve (τ := σ) (.reserve (τ := σ) ?_)
    refine (((FlowsWithin.append (c := [.label ⟨n⟩]) (.plain ?_) (lowerExpr_flows (σ := σ) hf hc hcc)).append
      (.plain ?_)).append (lowerStmt_flows (σ := σ) hf hb hcb)).append (.plain ?_)
    · rintro labels ⟨⟨-, htest⟩, -⟩
      exact .label htest .nil
    · rintro labels ⟨-, hdone⟩
      exact .branch .ifeq rfl rfl hdone .nil
    · rintro labels ⟨⟨-, htest⟩, hdone⟩
      exact .goto htest (.label hdone .nil)
  | .print e, _, _, _, _, _, .print he, h => by
    simp only [lowerStmt, state_bind_eq_ok, state_pure_eq_ok] at h
    obtain ⟨ce, _, hce, rfl, rfl⟩ := h
    exact (lowerExpr_flows hf he hce).append (.plain fun _ _ => .single .print rfl rfl)
  | .assign x e, _, _, _, _, σ, .assign hx he, h => by
    simp only [lowerStmt, state_bind_eq_ok, state_pure_eq_ok, state_lift_eq_ok] at h
    obtain ⟨⟨before, after⟩, _, ⟨hcx, rfl⟩, ce, _, hce, rfl, rfl⟩ := h
    obtain ⟨σ₁, hbefore, hafter⟩ := store_flows (σ := σ) hf hx hcx
    exact ((FlowsWithin.plain fun labels _ => hbefore labels).append (lowerExpr_flows hf he hce)).append
      (.plain fun labels _ => hafter labels)
  | .store x i e, _, _, _, _, _, .store hx hi he, h => by
    simp only [lowerStmt, state_bind_eq_ok, state_pure_eq_ok, state_lift_eq_ok] at h
    obtain ⟨cx', _, ⟨hcx, rfl⟩, ci, _, hci, ce, _, hce, rfl, rfl⟩ := h
    rw [loadArray_of_marked hx] at hcx
    exact ((FlowsWithin.append (.plain fun _ _ => load_flows hf hx hcx) (lowerExpr_flows hf hi hci)).append
      (lowerExpr_flows hf he hce)).append (.plain fun _ _ => .single .iastore rfl rfl)

theorem lowerStmts_flows (hf : f.Types sc cx) : ∀ {ss : List Stmt} {needs : (Label → StackType) → Prop} {code : List Instr}
    {n n' : Nat} {σ : StackType}, (∀ s ∈ ss, sc.MarkedStmt s) → f.lowerStmts ss n = .ok (code, n') →
      cx.FlowsWithin needs n n' code σ σ
  | [], _, _, _, _, _, _, h => by
    obtain ⟨rfl, rfl⟩ := state_pure_eq_ok.1 h
    exact .plain fun _ _ => .nil
  | s :: ss, _, _, _, _, _, hss, h => by
    obtain ⟨hs, hss⟩ := List.forall_mem_cons.1 hss
    simp only [lowerStmts, state_bind_eq_ok, state_pure_eq_ok] at h
    obtain ⟨cs, _, hcs, css, _, hcss, rfl, rfl⟩ := h
    exact (lowerStmt_flows hf hs hcs).append (lowerStmts_flows hf hss hcss)

end

end Frame

/-! ## Listings -/

/-- **Types for the stack throughout the listing of a method of the class `c`.**  The code returns at its end and nowhere
else, with one value, which can stand for what the method is declared to return. -/
structure Verifies (t : ClassTable) (c : Name) (m : Method) (l : MethodListing) (types : Nat → StackType) : Prop where
  assigns : StackContext.Assigns ⟨t, m.slotTypes c, some m.returns.val.storage⟩ l.code types
  returns : ∃ body s, l.code = body ++ [if m.returns.val.isReference then .areturn else .ireturn] ∧
    (∀ i ∈ body, i ≠ .ireturn ∧ i ≠ .areturn) ∧ types body.length = [s] ∧ t.Fits s m.returns.val.storage

/-- **Types for the stack throughout the code of the main class**, which leaves the stack empty at its end. -/
structure VerifiesMain (t : ClassTable) (code : List Instr) (types : Nat → StackType) : Prop where
  assigns : StackContext.Assigns ⟨t, [], none⟩ code types
  finish : types code.length = []

theorem exists_verifies {interfaces : Table Name Interface} {t : ClassTable} {c : Name} {m : Method} {l : MethodListing}
    (hi : Knows interfaces t) (hm : m.MarkedIn t c) (hl : Lists interfaces c m l) : ∃ types, Verifies t c m l types := by
  obtain ⟨n, n', hcode⟩ := hl.code
  have hlabels := Frame.lowerBody_ownLabels hcode
  simp only [Frame.lowerBody, state_bind_eq_ok, state_pure_eq_ok] at hcode
  obtain ⟨cb, _, hcb, cr, _, hcr, hwhole, -⟩ := hcode
  obtain ⟨ty, hr, hcompatible⟩ := hm.result
  let cx : StackContext := ⟨t, m.slotTypes c, some m.returns.val.storage⟩
  -- Nothing before the return returns, so the code up to there is typed as if the method never did.
  have hf := types_method (c := c) hi hm.distinct none
  have hwithin : cx.silent.FlowsWithin (fun _ => True) _ _ (cb ++ cr) [] [ty.storage] :=
    (Frame.lowerStmts_flows hf hm.body hcb).append (Frame.lowerExpr_flows hf hr hcr)
  obtain ⟨-, labels, hflows⟩ := hwithin
  obtain ⟨hbody, hreturns⟩ := (hflows labels trivial fun _ _ _ => rfl).of_silent
  have hreturn : cx.Types (if m.returns.val.isReference then .areturn else .ireturn) [ty.storage] [] :=
    .return rfl (ClassTable.fits_of_compatible hcompatible)
  have hlast : cx.Flows labels [if m.returns.val.isReference then .areturn else .ireturn] [ty.storage] [] := by
    cases hreference : m.returns.val.isReference <;> rw [hreference] at hreturn <;> exact .single hreturn rfl rfl
  obtain ⟨types, hassigns, -⟩ := (hbody.append hlast).assigns
    fun l' hl' => by
      rw [hwhole] at hl' ⊢
      exact hlabels.mem_definitions_iff.2 (hlabels.jumps l' hl')
  rw [hwhole] at hassigns
  obtain ⟨_, htypes, -⟩ := hassigns.step (cb ++ cr).length _ (by rw [← hwhole, List.getElem?_concat_length])
  obtain ⟨s, hs, hfits⟩ := htypes.of_return rfl
  exact ⟨types, hassigns, cb ++ cr, s, hwhole.symm, hreturns, hs, hfits⟩

end Assembly

/-- **Listings are well typed on the stack.**  Whatever the program, once it has been elaborated the stack has one type at
each place of the code of the main class and of each method: instructions find the operands that they are for, jumps and
the code before a label agree on the stack, and every method returns one value of its declared type. -/
theorem listings_verified (p : Program) (dump : Dump) (e : Elaborated) (h : (p.elaborate dump).result = .ok e) :
    ∃ code classes, (lowerProgram e.program).result = .ok (.main e.program.main.name.val code :: classes.map .cls) ∧
      (∃ types, VerifiesMain e.classes code types) ∧
      List.Forall₂ (fun (c : ClassDecl) (l : ClassListing) => l.name = c.name.val ∧
          List.Forall₂ (fun (m : Method) (l : MethodListing) => l.name = m.name.val ∧
            ∃ types, Verifies e.classes c.name.val m l types) c.methods l.methods)
        e.program.classes classes := by
  obtain ⟨hsound, -⟩ := elaborate_sound h
  obtain ⟨ls, hls⟩ := lowerProgram_total hsound
  obtain ⟨interfaces, code, n, n', classes, hi, hmain, hclasses, rfl⟩ := lowerProgram_sound hls
  obtain ⟨_, hi', hknows⟩ := hsound.declarations.interfacesOf_eq_ok
  cases hi.symm.trans hi'
  refine ⟨code, classes, hls, ?_, ?_⟩
  · have hwithin : StackContext.FlowsWithin ⟨e.classes, [], none⟩ (fun _ => True) n n' code [] [] :=
      Frame.lowerStmt_flows (types_main hknows) hsound.marked.main hmain
    obtain ⟨-, labels, hflows⟩ := hwithin
    have hlabels := Frame.lowerStmt_ownLabels hmain
    obtain ⟨types, hassigns, hend⟩ := (hflows labels trivial fun _ _ _ => rfl).assigns
      fun l hl => hlabels.mem_definitions_iff.2 (hlabels.jumps l hl)
    exact ⟨types, hassigns, hend⟩
  · refine ((List.forall₂_and_left _ _).2 ⟨hsound.marked.methods, hclasses⟩).imp fun c l ⟨hms, hname, hl⟩ => ⟨hname, ?_⟩
    exact ((List.forall₂_and_left _ _).2 ⟨hms, hl⟩).imp fun m l ⟨hm, hl⟩ => ⟨hl.name, exists_verifies hknows hm hl⟩

theorem listings_verified_on_sample : ∃ e, (Sample.program.elaborate ⟨true, true⟩).result = .ok e ∧
    ∃ code classes, (lowerProgram e.program).result = .ok (.main e.program.main.name.val code :: classes.map .cls) ∧
      (∃ types, VerifiesMain e.classes code types) ∧
      List.Forall₂ (fun (c : ClassDecl) (l : ClassListing) => l.name = c.name.val ∧
          List.Forall₂ (fun (m : Method) (l : MethodListing) => l.name = m.name.val ∧
            ∃ types, Verifies e.classes c.name.val m l types) c.methods l.methods)
        e.program.classes classes :=
  ⟨_, rfl, listings_verified Sample.program ⟨true, true⟩ _ rfl⟩

end MiniJava
