import MiniJava.Proofs.Assembly.Frames
import MiniJava.Proofs.Assembly.Labels
import MiniJava.Proofs.Typing.Elaborated
/-!
# Listings of elaborated programs

Code can be made for everything that bears its marks, in every frame that serves its scope, whatever the labels count on
from (`Frame.lowerExpr_total`, `Frame.lowerStmt_total`).  A listing of a sound program therefore always comes out, and
holds the code of each method (`lowerProgram_sound`).
-/
namespace MiniJava

namespace Assembly

namespace Frame

variable {f : Frame} {sc : Scope}

theorem slot_eq_ok {x : Located Name} {n : Nat} : f.slot x = .ok n ↔ valueOf? x.val f.slots = some n := by
  unfold slot
  cases valueOf? x.val f.slots <;> simp

section

variable {x : Located Name} {ty : Ty} {code before after : List Instr}

theorem load_method_eq_ok : f.load ⟨x, some ty, some .method⟩ = .ok code ↔
    ∃ n, valueOf? x.val f.slots = some n ∧ [if ty.isReference then .aload n else .iload n] = code := by
  show (f.slot x >>= _) = .ok code ↔ _
  simp only [bind_eq_ok, slot_eq_ok, pure_eq_ok]

theorem load_object_eq_ok : f.load ⟨x, some ty, some .object⟩ = .ok code ↔
    [.aload 0, .getfield f.cls x.val ty.storage] = code := pure_eq_ok

theorem store_method_eq_ok : f.store ⟨x, some ty, some .method⟩ = .ok (before, after) ↔
    ∃ n, valueOf? x.val f.slots = some n ∧ [] = before ∧ [if ty.isReference then .astore n else .istore n] = after := by
  show (f.slot x >>= _) = .ok (before, after) ↔ _
  simp only [bind_eq_ok, slot_eq_ok, pure_eq_ok, Prod.mk.injEq]

theorem store_object_eq_ok : f.store ⟨x, some ty, some .object⟩ = .ok (before, after) ↔
    [.aload 0] = before ∧ [.putfield f.cls x.val ty.storage] = after := pure_eq_ok.trans (iff_of_eq (Prod.mk.injEq ..))

end

theorem loadArray_of_marked {x : Variable} {home : Home} (h : sc.MarkedVariable x .intArray home) :
    f.loadArray x = f.load x := by
  obtain ⟨-⟩ := h
  exact loadArray_eq_load _

theorem load_total (hf : f.Serves sc) {x : Variable} {ty : Ty} {home : Home} (h : sc.MarkedVariable x ty home) :
    ∃ code, f.load x = .ok code := by
  obtain ⟨hx⟩ := h
  cases hx with
  | method hget =>
    obtain ⟨n, hn⟩ := hf.slots _ _ hget
    exact ⟨_, load_method_eq_ok.2 ⟨n, hn, rfl⟩⟩
  | object _ _ _ => exact ⟨_, load_object_eq_ok.2 rfl⟩

theorem store_total (hf : f.Serves sc) {x : Variable} {ty : Ty} {home : Home} (h : sc.MarkedVariable x ty home) :
    ∃ before after, f.store x = .ok (before, after) := by
  obtain ⟨hx⟩ := h
  cases hx with
  | method hget =>
    obtain ⟨n, hn⟩ := hf.slots _ _ hget
    exact ⟨_, _, store_method_eq_ok.2 ⟨n, hn, rfl, rfl⟩⟩
  | object _ _ _ => exact ⟨_, _, store_object_eq_ok.2 ⟨rfl, rfl⟩⟩

theorem applyOp_total (op : Op) (n : Nat) : ∃ code n', applyOp op n = .ok (code, n') := by
  cases op <;> exact ⟨_, _, rfl⟩

mutual

/-- **Code can be made for every expression that bears its marks.** -/
theorem lowerExpr_total (hf : f.Serves sc) : ∀ {e : Expr} {ty : Ty}, sc.Marked e ty →
    ∀ n, ∃ code n', f.lowerExpr e n = .ok (code, n')
  | .literal _ _, _, _, n | .bool _ _, _, _, n | .self _, _, _, n | .newObject _ _, _, _, n => by
    simp only [lowerExpr, state_pure_eq_ok]
    exact ⟨_, _, rfl, rfl⟩
  | .read _ x, _, .read hx, n => by
    obtain ⟨code, hc⟩ := load_total hf hx
    exact ⟨code, n, state_lift_eq_ok.2 ⟨hc, rfl⟩⟩
  | .binary _ l op r, _, .binary hl hr, n => by
    obtain ⟨cl, n₁, hl⟩ := lowerExpr_total hf hl n
    obtain ⟨cr, n₂, hr⟩ := lowerExpr_total hf hr n₁
    obtain ⟨ca, n₃, ha⟩ := applyOp_total op n₂
    simp only [lowerExpr, state_bind_eq_ok, state_pure_eq_ok]
    exact ⟨_, _, _, _, hl, _, _, hr, _, _, ha, rfl, rfl⟩
  | .not _ e, _, .not he, n => by
    obtain ⟨ce, n₁, he⟩ := lowerExpr_total hf he (n + 1 + 1)
    simp only [lowerExpr, state_bind_eq_ok, state_pure_eq_ok, freshLabel_eq_ok]
    exact ⟨_, _, _, _, ⟨rfl, rfl⟩, _, _, ⟨rfl, rfl⟩, _, _, he, rfl, rfl⟩
  | .index _ a i, _, .index ha hi, n => by
    obtain ⟨ca, n₁, ha⟩ := lowerExpr_total hf ha n
    obtain ⟨ci, n₂, hi⟩ := lowerExpr_total hf hi n₁
    simp only [lowerExpr, state_bind_eq_ok, state_pure_eq_ok]
    exact ⟨_, _, _, _, ha, _, _, hi, rfl, rfl⟩
  | .length _ e, _, .length he, n | .newArray _ e, _, .newArray he, n => by
    obtain ⟨ce, n₁, he⟩ := lowerExpr_total hf he n
    simp only [lowerExpr, state_bind_eq_ok, state_pure_eq_ok]
    exact ⟨_, _, _, _, he, rfl, rfl⟩
  | .call _ r m es _, _, .call hr hm hes _, n => by
    obtain ⟨cr, n₁, hr⟩ := lowerExpr_total hf hr n
    obtain ⟨ces, n₂, hes⟩ := lowerExprs_total hf hes n₁
    simp only [lowerExpr, state_bind_eq_ok, state_pure_eq_ok, state_lift_eq_ok]
    exact ⟨_, _, _, _, ⟨rfl, rfl⟩, _, _, ⟨hf.methods _ _ _ hm, rfl⟩, _, _, hr, _, _, hes, rfl, rfl⟩

theorem lowerExprs_total (hf : f.Serves sc) : ∀ {es : List Expr} {tys : List Ty}, List.Forall₂ sc.Marked es tys →
    ∀ n, ∃ code n', f.lowerExprs es n = .ok (code, n')
  | [], _, _, n => ⟨[], n, state_pure_eq_ok.2 ⟨rfl, rfl⟩⟩
  | e :: es, _, .cons he hes, n => by
    obtain ⟨ce, n₁, he⟩ := lowerExpr_total hf he n
    obtain ⟨ces, n₂, hes⟩ := lowerExprs_total hf hes n₁
    simp only [lowerExprs, state_bind_eq_ok, state_pure_eq_ok]
    exact ⟨_, _, _, _, he, _, _, hes, rfl, rfl⟩

end

mutual

/-- **Code can be made for every statement that bears its marks.** -/
theorem lowerStmt_total (hf : f.Serves sc) : ∀ {s : Stmt}, sc.MarkedStmt s →
    ∀ n, ∃ code n', f.lowerStmt s n = .ok (code, n')
  | .block body, .block hb, n => by
    simp only [lowerStmt]
    exact lowerStmts_total hf hb n
  | .ite c yes no, .ite hc hy hn, n => by
    obtain ⟨cc, n₁, hc⟩ := lowerExpr_total hf hc (n + 1 + 1 + 1)
    obtain ⟨cn, n₂, hn⟩ := lowerStmt_total hf hn n₁
    obtain ⟨cy, n₃, hy⟩ := lowerStmt_total hf hy n₂
    simp only [lowerStmt, state_bind_eq_ok, state_pure_eq_ok, freshLabel_eq_ok]
    exact ⟨_, _, _, _, ⟨rfl, rfl⟩, _, _, ⟨rfl, rfl⟩, _, _, ⟨rfl, rfl⟩, _, _, hc, _, _, hn, _, _, hy, rfl, rfl⟩
  | .loop c body, .loop hc hb, n => by
    obtain ⟨cc, n₁, hc⟩ := lowerExpr_total hf hc (n + 1 + 1)
    obtain ⟨cb, n₂, hb⟩ := lowerStmt_total hf hb n₁
    simp only [lowerStmt, state_bind_eq_ok, state_pure_eq_ok, freshLabel_eq_ok]
    exact ⟨_, _, _, _, ⟨rfl, rfl⟩, _, _, ⟨rfl, rfl⟩, _, _, hc, _, _, hb, rfl, rfl⟩
  | .print e, .print he, n => by
    obtain ⟨ce, n₁, he⟩ := lowerExpr_total hf he n
    simp only [lowerStmt, state_bind_eq_ok, state_pure_eq_ok]
    exact ⟨_, _, _, _, he, rfl, rfl⟩
  | .assign x e, .assign hx he, n => by
    obtain ⟨before, after, hx⟩ := store_total hf hx
    obtain ⟨ce, n₁, he⟩ := lowerExpr_total hf he n
    simp only [lowerStmt, state_bind_eq_ok, state_pure_eq_ok, state_lift_eq_ok]
    exact ⟨_, _, _, _, ⟨hx, rfl⟩, _, _, he, rfl, rfl⟩
  | .store x i e, .store hx hi he, n => by
    obtain ⟨cx, hcx⟩ := load_total hf hx
    rw [← loadArray_of_marked hx] at hcx
    obtain ⟨ci, n₁, hi⟩ := lowerExpr_total hf hi n
    obtain ⟨ce, n₂, he⟩ := lowerExpr_total hf he n₁
    simp only [lowerStmt, state_bind_eq_ok, state_pure_eq_ok, state_lift_eq_ok]
    exact ⟨_, _, _, _, ⟨hcx, rfl⟩, _, _, hi, _, _, he, rfl, rfl⟩

theorem lowerStmts_total (hf : f.Serves sc) : ∀ {ss : List Stmt}, (∀ s ∈ ss, sc.MarkedStmt s) →
    ∀ n, ∃ code n', f.lowerStmts ss n = .ok (code, n')
  | [], _, n => ⟨[], n, state_pure_eq_ok.2 ⟨rfl, rfl⟩⟩
  | s :: ss, h, n => by
    obtain ⟨hs, hss⟩ := List.forall_mem_cons.1 h
    obtain ⟨cs, n₁, hs⟩ := lowerStmt_total hf hs n
    obtain ⟨css, n₂, hss⟩ := lowerStmts_total hf hss n₁
    simp only [lowerStmts, state_bind_eq_ok, state_pure_eq_ok]
    exact ⟨_, _, _, _, hs, _, _, hss, rfl, rfl⟩

end

theorem lowerBody_total {t : ClassTable} {c : Name} {m : Method} (hf : f.Serves (m.scope t c)) (hm : m.MarkedIn t c)
    (n : Nat) : ∃ code n', f.lowerBody m n = .ok (code, n') := by
  obtain ⟨cb, n₁, hb⟩ := lowerStmts_total hf hm.body n
  obtain ⟨ty, hr, -⟩ := hm.result
  obtain ⟨cr, n₂, hr⟩ := lowerExpr_total hf hr n₁
  simp only [lowerBody, state_bind_eq_ok, state_pure_eq_ok]
  exact ⟨_, _, _, _, hb, _, _, hr, rfl, rfl⟩

end Frame

/-! ## Listings -/

theorem report_eq_ok {level : Level} {text : String} {n n' : Nat} {u : Unit} :
    (report level text n).result = .ok (u, n') ↔ n = n' := by
  show Except.ok ((), n) = .ok (u, n') ↔ _
  rw [Except.ok.injEq, Prod.mk.injEq]
  exact and_iff_right rfl

theorem checked_eq_ok {unit : String} {emit : Emit (List Instr)} {code : List Instr} {n n' : Nat} :
    (checked unit emit n).result = .ok (code, n') ↔ emit n = .ok (code, n') ∧ checkLabels unit code = .ok () := by
  simp only [checked, Logged.result_ofExcept, bind_eq_ok, pure_eq_ok, Prod.exists, Prod.mk.injEq]
  constructor
  · rintro ⟨_, _, hc, _, hl, rfl, rfl⟩
    exact ⟨hc, hl⟩
  · rintro ⟨hc, hl⟩
    exact ⟨_, _, hc, _, hl, rfl, rfl⟩

/-- What the listing of a method of the class `c` is: its types, one slot for each variable and one for the object, and
the code that its frame gives it. -/
structure Lists (interfaces : Table Name Interface) (c : Name) (m : Method) (l : MethodListing) : Prop where
  name : l.name = m.name.val
  formals : l.formals = m.formalStorages
  returns : l.returns = m.returns.val.storage
  slots : l.slots = (slotsOf m).length + 1
  code : ∃ n n', Frame.lowerBody ⟨interfaces, c, slotsOf m⟩ m n = .ok (l.code, n')

variable {interfaces : Table Name Interface} {c : Name}

theorem lowerMethod_sound {m : Method} {l : MethodListing} {n n' : Nat}
    (h : (lowerMethod interfaces c m n).result = .ok (l, n')) : Lists interfaces c m l := by
  simp only [lowerMethod, logged_bind_eq_ok, logged_pure_eq_ok, report_eq_ok, checked_eq_ok] at h
  obtain ⟨_, _, rfl, code, _, ⟨hc, -⟩, rfl, rfl⟩ := h
  exact ⟨rfl, rfl, rfl, rfl, _, _, hc⟩

theorem lowerMethod_total {t : ClassTable} (hi : Knows interfaces t) {m : Method} (hm : m.MarkedIn t c) (n : Nat) :
    ∃ l n', (lowerMethod interfaces c m n).result = .ok (l, n') := by
  obtain ⟨code, n', hc⟩ := Frame.lowerBody_total (serves_method hi hm.distinct) hm n
  simp only [lowerMethod, logged_bind_eq_ok, logged_pure_eq_ok, report_eq_ok, checked_eq_ok]
  exact ⟨_, _, (), _, rfl, code, n', ⟨hc, checkLabels_of_own (Frame.lowerBody_ownLabels hc) _⟩, rfl, rfl⟩

theorem lowerClass_sound {c : ClassDecl} {l : ClassListing} {n n' : Nat}
    (h : (lowerClass interfaces c n).result = .ok (l, n')) :
    l.name = c.name.val ∧ List.Forall₂ (Lists interfaces c.name.val) c.methods l.methods := by
  simp only [lowerClass, logged_bind_eq_ok, logged_pure_eq_ok, report_eq_ok] at h
  obtain ⟨_, _, rfl, ls, _, hls, rfl, rfl⟩ := h
  exact ⟨rfl, (logged_mapM_sound hls).imp fun _ _ ⟨_, _, hl⟩ => lowerMethod_sound hl⟩

theorem lowerClass_total {t : ClassTable} (hi : Knows interfaces t) {c : ClassDecl}
    (hc : ∀ m ∈ c.methods, m.MarkedIn t c.name.val) (n : Nat) :
    ∃ l n', (lowerClass interfaces c n).result = .ok (l, n') := by
  obtain ⟨ls, n', hls⟩ := logged_mapM_total (f := lowerMethod interfaces c.name.val)
    (fun m hm => lowerMethod_total hi (hc m hm)) n
  simp only [lowerClass, logged_bind_eq_ok, logged_pure_eq_ok, report_eq_ok]
  exact ⟨_, _, (), _, rfl, ls, n', hls, rfl, rfl⟩

theorem lowerMain_sound {main : MainClass} {code : List Instr} {n n' : Nat}
    (h : (lowerMain interfaces main n).result = .ok (code, n')) :
    Frame.lowerStmt ⟨interfaces, main.name.val, []⟩ main.body n = .ok (code, n') := by
  simp only [lowerMain, logged_bind_eq_ok, report_eq_ok, checked_eq_ok] at h
  obtain ⟨_, _, rfl, hc, -⟩ := h
  exact hc

theorem lowerMain_total {t : ClassTable} (hi : Knows interfaces t) {main : MainClass}
    (hm : t.mainScope.MarkedStmt main.body) (n : Nat) :
    ∃ code n', (lowerMain interfaces main n).result = .ok (code, n') := by
  obtain ⟨code, n', hc⟩ := Frame.lowerStmt_total (serves_main hi) hm n
  simp only [lowerMain, logged_bind_eq_ok, report_eq_ok, checked_eq_ok]
  exact ⟨code, n', (), n, rfl, hc, checkLabels_of_own (Frame.lowerStmt_ownLabels hc) _⟩

theorem lowerProgram_eq_ok {p : Program} {ls : List Listing} : (lowerProgram p).result = .ok ls ↔
    ∃ interfaces code n classes n', interfacesOf p = .ok interfaces ∧
      (lowerMain interfaces p.main 0).result = .ok (code, n) ∧
      (p.classes.mapM (lowerClass interfaces) n).result = .ok (classes, n') ∧
      ls = .main p.main.name.val code :: classes.map .cls := by
  simp only [lowerProgram, Logged.result_bind, Logged.result_liftM, bind_eq_ok, Logged.result_pure, Except.ok.injEq,
    Prod.exists, lowerClasses, logged_bind_eq_ok, logged_pure_eq_ok]
  constructor
  · rintro ⟨interfaces, hi, _, _, ⟨code, n, hmain, classes, _, hclasses, rfl, rfl⟩, rfl⟩
    exact ⟨interfaces, code, n, classes, _, hi, hmain, hclasses, rfl⟩
  · rintro ⟨interfaces, code, n, classes, n', hi, hmain, hclasses, rfl⟩
    exact ⟨interfaces, hi, _, n', ⟨code, n, hmain, classes, n', hclasses, rfl, rfl⟩, rfl⟩

/-- **What the listings of a program hold**: the code of the main class, then class by class that of each method. -/
theorem lowerProgram_sound {p : Program} {ls : List Listing} (h : (lowerProgram p).result = .ok ls) :
    ∃ interfaces code n n' classes, interfacesOf p = .ok interfaces ∧
      Frame.lowerStmt ⟨interfaces, p.main.name.val, []⟩ p.main.body n = .ok (code, n') ∧
      List.Forall₂ (fun (c : ClassDecl) (l : ClassListing) =>
        l.name = c.name.val ∧ List.Forall₂ (Lists interfaces c.name.val) c.methods l.methods) p.classes classes ∧
      ls = .main p.main.name.val code :: classes.map .cls := by
  obtain ⟨interfaces, code, _, classes, _, hi, hmain, hclasses, rfl⟩ := lowerProgram_eq_ok.1 h
  refine ⟨interfaces, code, _, _, classes, hi, lowerMain_sound hmain, (logged_mapM_sound hclasses).imp ?_, rfl⟩
  rintro c l ⟨_, _, hl⟩
  exact lowerClass_sound hl

/-- The listings of a program are those of its classes, the main class first. -/
theorem names_of_lowerProgram {p : Program} {ls : List Listing}
    (h : (lowerProgram p).result = .ok ls) :
    ls.map (·.name) = p.main.name.val :: p.classes.map (·.name.val) := by
  obtain ⟨_, _, _, _, classes, -, -, hclasses, rfl⟩ := lowerProgram_sound h
  rw [List.map_cons, List.map_map]
  exact congrArg _ (map_eq_of_forall₂ _ _ hclasses fun _ _ h => h.1.symm).symm

/-- **A sound program has listings.** -/
theorem lowerProgram_total {e : Elaborated} (h : e.Sound) : ∃ ls, (lowerProgram e.program).result = .ok ls := by
  obtain ⟨interfaces, hi, hknows⟩ := h.declarations.interfacesOf_eq_ok
  obtain ⟨code, n₁, hcode⟩ := lowerMain_total hknows h.marked.main 0
  obtain ⟨classes, n₂, hclasses⟩ := logged_mapM_total (f := lowerClass interfaces)
    (fun c hc => lowerClass_total hknows (h.marked.methods c hc)) n₁
  exact ⟨_, lowerProgram_eq_ok.2 ⟨interfaces, code, n₁, classes, n₂, hi, hcode, hclasses, rfl⟩⟩

end Assembly

end MiniJava
