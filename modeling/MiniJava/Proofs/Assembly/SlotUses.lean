import MiniJava.Assembly.Text
import MiniJava.Proofs.Assembly.Emission
/-!
# What slots are used for

The variables of a method have the slots from 1 on, in the order of their declarations, and the object has slot 0.  The
code of a method loads and stores slots just where the source reads and writes variables: which slots it uses, for what
and in which order is read off the source by the names alone (`Method.slotUses`), apart from any marks
(`Frame.lowerExpr_uses`, `Frame.lowerStmt_uses`).
-/
namespace MiniJava

open Assembly

/-! ## From the source -/

/-- The names of the formals, then those of the locals. -/
def Method.variableNames (m : Method) : List Name := (m.formals ++ m.locals).map (·.name.val)

/-- What a slot is used for: to load the object, or to load or store a variable of the method. -/
inductive SlotUse where
  | object
  | load (x : Name)
  | store (x : Name)
  deriving DecidableEq, Repr

/-- A name that is none of the method's variables is a field of the object. -/
def SlotUse.ofRead (vars : List Name) (x : Name) : SlotUse := if x ∈ vars then .load x else .object

namespace Expr

mutual

/-- What slots an expression uses, in the order of evaluation, where the method has the variables `vars`. -/
def slotUses (vars : List Name) : Expr → List SlotUse
  | literal _ _ | bool _ _ | newObject _ _ => []
  | self _ => [.object]
  | read _ x => [.ofRead vars x.name.val]
  | binary _ l _ r => slotUses vars l ++ slotUses vars r
  | not _ e | length _ e | newArray _ e => slotUses vars e
  | index _ a i => slotUses vars a ++ slotUses vars i
  | call _ r _ es _ => slotUses vars r ++ slotUsesAll vars es

def slotUsesAll (vars : List Name) : List Expr → List SlotUse
  | [] => []
  | e :: es => slotUses vars e ++ slotUsesAll vars es

end

end Expr

namespace Stmt

mutual

/-- What slots a statement uses, in the order of the code.  The branch for a false condition comes first; a variable of
the method is stored after its value has been made, but the object that a field is written in is loaded before. -/
def slotUses (vars : List Name) : Stmt → List SlotUse
  | block body => slotUsesAll vars body
  | ite c yes no => c.slotUses vars ++ slotUses vars no ++ slotUses vars yes
  | loop c body => c.slotUses vars ++ slotUses vars body
  | print e => e.slotUses vars
  | assign x e =>
    if x.name.val ∈ vars then e.slotUses vars ++ [.store x.name.val] else .object :: e.slotUses vars
  | store x i e => .ofRead vars x.name.val :: (i.slotUses vars ++ e.slotUses vars)

def slotUsesAll (vars : List Name) : List Stmt → List SlotUse
  | [] => []
  | s :: ss => slotUses vars s ++ slotUsesAll vars ss

end

end Stmt

def Method.slotUses (m : Method) : List SlotUse :=
  Stmt.slotUsesAll m.variableNames m.body ++ m.result.slotUses m.variableNames

/-- The slot of a variable, by its place among the declarations. -/
def Method.slotOf (m : Method) (x : Name) : Nat := m.variableNames.idxOf x + 1

/-- Whether a variable is declared to hold a reference. -/
def Method.holdsReference (m : Method) (x : Name) : Bool := (valueOf? x m.variables).any Ty.isReference

/-- The instruction that uses a slot as it is used in the method. -/
def SlotUse.instr (m : Method) : SlotUse → Instr
  | object => .aload 0
  | load x => if m.holdsReference x then .aload (m.slotOf x) else .iload (m.slotOf x)
  | store x => if m.holdsReference x then .astore (m.slotOf x) else .istore (m.slotOf x)

/-- What is used is the object or one of the variables. -/
def SlotUse.Within (vars : List Name) : SlotUse → Prop
  | object => True
  | load x | store x => x ∈ vars

/-! ## From the code -/

namespace Assembly

/-- The slot that an instruction loads or stores. -/
def Instr.slot? : Instr → Option Nat
  | aload n | astore n | iload n | istore n => some n
  | _ => none

def Instr.usesSlot (i : Instr) : Bool := i.slot?.isSome

/-- **The code uses slots in just this way.** -/
structure Uses (m : Method) (code : List Instr) (uses : List SlotUse) : Prop where
  code : code.filter Instr.usesSlot = uses.map (SlotUse.instr m)
  within : ∀ u ∈ uses, u.Within m.variableNames

namespace Uses

variable {m : Method} {code code' : List Instr} {us vs : List SlotUse}

theorem append (h : Uses m code us) (h' : Uses m code' vs) : Uses m (code ++ code') (us ++ vs) where
  code := by rw [List.filter_append, h.code, h'.code, List.map_append]
  within := fun u hu => (List.mem_append.1 hu).elim (h.within u) (h'.within u)

theorem nil (h : code.filter Instr.usesSlot = []) : Uses m code [] := ⟨h, nofun⟩

theorem append_plain (h : Uses m code us) (h' : code'.filter Instr.usesSlot = []) : Uses m (code ++ code') us := by
  have hboth := h.append (.nil h')
  rwa [List.append_nil] at hboth

theorem object (h : code.filter Instr.usesSlot = [.aload 0]) : Uses m code [.object] := ⟨h, by simp [SlotUse.Within]⟩

end Uses

/-- **The frame has the slots of the method's variables**, and the scope their types. -/
structure Frame.Slots (f : Frame) (sc : Scope) (m : Method) : Prop where
  declared : ∀ x, x ∈ m.variableNames ↔ sc.locals.get? x ≠ none
  types : ∀ x ty, sc.locals.get? x = some ty → m.holdsReference x = ty.isReference
  slots : ∀ x n, valueOf? x f.slots = some n → n = m.slotOf x

theorem slots_method {m : Method} (hn : ((m.formals ++ m.locals).map (·.name.val)).Nodup)
    (interfaces : Table Name Interface) (t : ClassTable) (c : Name) :
    Frame.Slots ⟨interfaces, c, slotsOf m⟩ (m.scope t c) m := by
  have hkeys : m.variables.map Prod.fst = m.variableNames := by
    rw [Method.variables, List.map_map]
    rfl
  have hget : ∀ x, (m.scope t c).locals.get? x = valueOf? x m.variables := fun x => by
    rw [Method.scope, Table.get?_ofList, Table.valueOf?_reverse (hkeys ▸ hn)]
  refine ⟨fun x => ?_, fun x ty hx => ?_, fun x n hslot => ?_⟩
  · rw [hget, Ne, valueOf?_eq_none_iff, not_not, hkeys]
  · rw [hget] at hx
    rw [Method.holdsReference, hx, Option.any_some]
  · obtain ⟨hpos, hname⟩ := (valueOf?_slotsOf hn).1 hslot
    obtain ⟨hlt, hget⟩ := List.getElem?_eq_some_iff.1 hname
    have hidx : m.variableNames.idxOf x = n - 1 := by
      rw [← hget]
      exact hn.idxOf_getElem _ hlt
    rw [Method.slotOf, hidx]
    omega

namespace Frame

variable {f : Frame} {sc : Scope} {m : Method} {x : Variable} {ty : Ty} {home : Home}

theorem load_uses (hf : f.Slots sc m) {code : List Instr} (h : sc.MarkedVariable x ty home) (hc : f.load x = .ok code) :
    Uses m code [.ofRead m.variableNames x.name.val] := by
  obtain ⟨hx⟩ := h
  cases hx with
  | @method ty hget =>
    obtain ⟨n, hn, rfl⟩ := load_method_eq_ok.1 hc
    have hmem := (hf.declared _).2 (Option.ne_none_iff_exists'.2 ⟨ty, hget⟩)
    rw [SlotUse.ofRead, if_pos hmem, hf.slots _ _ hn]
    refine ⟨?_, List.forall_mem_singleton.2 hmem⟩
    rw [List.map_singleton, SlotUse.instr, hf.types _ _ hget]
    cases ty.isReference <;> rfl
  | object hnone _ _ =>
    cases load_object_eq_ok.1 hc
    rw [SlotUse.ofRead, if_neg fun hmem => (hf.declared _).1 hmem hnone]
    exact .object rfl

theorem store_uses (hf : f.Slots sc m) {code before after : List Instr} {us : List SlotUse}
    (h : sc.MarkedVariable x ty home) (hc : f.store x = .ok (before, after)) (hcode : Uses m code us) :
    Uses m (before ++ code ++ after)
      (if x.name.val ∈ m.variableNames then us ++ [.store x.name.val] else .object :: us) := by
  obtain ⟨hx⟩ := h
  cases hx with
  | @method ty hget =>
    obtain ⟨n, hn, rfl, rfl⟩ := store_method_eq_ok.1 hc
    have hmem := (hf.declared _).2 (Option.ne_none_iff_exists'.2 ⟨ty, hget⟩)
    rw [if_pos hmem, hf.slots _ _ hn]
    refine hcode.append ⟨?_, List.forall_mem_singleton.2 hmem⟩
    rw [List.map_singleton, SlotUse.instr, hf.types _ _ hget]
    cases ty.isReference <;> rfl
  | object hnone _ _ =>
    obtain ⟨rfl, rfl⟩ := store_object_eq_ok.1 hc
    rw [if_neg fun hmem => (hf.declared _).1 hmem hnone]
    have hobject : Uses m [.aload 0] [.object] := .object rfl
    exact (hobject.append hcode).append_plain rfl

theorem applyOp_plain {op : Op} {code : List Instr} {n n' : Nat} (h : applyOp op n = .ok (code, n')) :
    code.filter Instr.usesSlot = [] := by
  cases op <;> cases h <;> rfl

mutual

/-- **The code of an expression uses slots as the expression does.** -/
theorem lowerExpr_uses (hf : f.Slots sc m) : ∀ {e : Expr} {ty : Ty} {code : List Instr} {n n' : Nat},
    sc.Marked e ty → f.lowerExpr e n = .ok (code, n') → Uses m code (e.slotUses m.variableNames)
  | .literal _ _, _, _, _, _, _, h | .bool _ _, _, _, _, _, _, h | .newObject _ _, _, _, _, _, _, h => by
    obtain ⟨rfl, -⟩ := state_pure_eq_ok.1 h
    exact .nil rfl
  | .self _, _, _, _, _, _, h => by
    obtain ⟨rfl, -⟩ := state_pure_eq_ok.1 h
    exact .object rfl
  | .read _ x, _, _, _, _, .read hx, h => load_uses hf hx (state_lift_eq_ok.1 h).1
  | .binary _ l op r, _, _, _, _, .binary hl hr, h => by
    simp only [lowerExpr, state_bind_eq_ok, state_pure_eq_ok] at h
    obtain ⟨cl, _, hcl, cr, _, hcr, ca, _, hca, rfl, -⟩ := h
    exact ((lowerExpr_uses hf hl hcl).append (lowerExpr_uses hf hr hcr)).append_plain (applyOp_plain hca)
  | .not _ e, _, _, _, _, .not he, h => by
    simp only [lowerExpr, state_bind_eq_ok, state_pure_eq_ok] at h
    obtain ⟨_, _, -, _, _, -, ce, _, hce, rfl, -⟩ := h
    exact (lowerExpr_uses hf he hce).append_plain rfl
  | .index _ a i, _, _, _, _, .index ha hi, h => by
    simp only [lowerExpr, state_bind_eq_ok, state_pure_eq_ok] at h
    obtain ⟨ca, _, hca, ci, _, hci, rfl, -⟩ := h
    exact ((lowerExpr_uses hf ha hca).append (lowerExpr_uses hf hi hci)).append_plain rfl
  | .length _ e, _, _, _, _, .length he, h | .newArray _ e, _, _, _, _, .newArray he, h => by
    simp only [lowerExpr, state_bind_eq_ok, state_pure_eq_ok] at h
    obtain ⟨ce, _, hce, rfl, -⟩ := h
    exact (lowerExpr_uses hf he hce).append_plain rfl
  | .call _ r m es _, _, _, _, _, .call hr _ hes _, h => by
    simp only [lowerExpr, state_bind_eq_ok, state_pure_eq_ok, state_lift_eq_ok] at h
    obtain ⟨_, _, -, ref, _, -, cr, _, hcr, ces, _, hces, rfl, -⟩ := h
    exact ((lowerExpr_uses hf hr hcr).append (lowerExprs_uses hf hes hces)).append_plain rfl

theorem lowerExprs_uses (hf : f.Slots sc m) : ∀ {es : List Expr} {tys : List Ty} {code : List Instr} {n n' : Nat},
    List.Forall₂ sc.Marked es tys → f.lowerExprs es n = .ok (code, n') →
    Uses m code (Expr.slotUsesAll m.variableNames es)
  | [], _, _, _, _, _, h => by
    obtain ⟨rfl, -⟩ := state_pure_eq_ok.1 h
    exact .nil rfl
  | e :: es, _, _, _, _, .cons he hes, h => by
    simp only [lowerExprs, state_bind_eq_ok, state_pure_eq_ok] at h
    obtain ⟨ce, _, hce, ces, _, hces, rfl, -⟩ := h
    exact (lowerExpr_uses hf he hce).append (lowerExprs_uses hf hes hces)

end

mutual

/-- **The code of a statement uses slots as the statement does.** -/
theorem lowerStmt_uses (hf : f.Slots sc m) : ∀ {s : Stmt} {code : List Instr} {n n' : Nat},
    sc.MarkedStmt s → f.lowerStmt s n = .ok (code, n') → Uses m code (s.slotUses m.variableNames)
  | .block body, _, _, _, .block hb, h => by
    rw [lowerStmt] at h
    exact lowerStmts_uses hf hb h
  | .ite c yes no, _, _, _, .ite hc hy hn, h => by
    simp only [lowerStmt, state_bind_eq_ok, state_pure_eq_ok] at h
    obtain ⟨yesLabel, _, -, noLabel, _, -, done, _, -, cc, _, hcc, cn, _, hcn, cy, _, hcy, rfl, -⟩ := h
    have hcondition : Uses m (cc ++ [.ifne yesLabel, .label noLabel]) _ := (lowerExpr_uses hf hc hcc).append_plain rfl
    have hno : Uses m (_ ++ [.goto done, .label yesLabel]) _ :=
      (hcondition.append (lowerStmt_uses hf hn hcn)).append_plain rfl
    exact (hno.append (lowerStmt_uses hf hy hcy)).append_plain rfl
  | .loop c body, _, _, _, .loop hc hb, h => by
    simp only [lowerStmt, state_bind_eq_ok, state_pure_eq_ok] at h
    obtain ⟨test, _, -, done, _, -, cc, _, hcc, cb, _, hcb, rfl, -⟩ := h
    have htest : Uses m [.label test] [] := .nil rfl
    have hcondition : Uses m (_ ++ [.ifeq done]) _ := (htest.append (lowerExpr_uses hf hc hcc)).append_plain rfl
    exact (hcondition.append (lowerStmt_uses hf hb hcb)).append_plain rfl
  | .print e, _, _, _, .print he, h => by
    simp only [lowerStmt, state_bind_eq_ok, state_pure_eq_ok] at h
    obtain ⟨ce, _, hce, rfl, -⟩ := h
    exact (lowerExpr_uses hf he hce).append_plain rfl
  | .assign x e, _, _, _, .assign hx he, h => by
    simp only [lowerStmt, state_bind_eq_ok, state_pure_eq_ok, state_lift_eq_ok] at h
    obtain ⟨⟨before, after⟩, _, ⟨hcx, -⟩, ce, _, hce, rfl, -⟩ := h
    exact store_uses hf hx hcx (lowerExpr_uses hf he hce)
  | .store x i e, _, _, _, .store hx hi he, h => by
    simp only [lowerStmt, state_bind_eq_ok, state_pure_eq_ok, state_lift_eq_ok] at h
    obtain ⟨cx, _, ⟨hcx, -⟩, ci, _, hci, ce, _, hce, rfl, -⟩ := h
    rw [loadArray_of_marked hx] at hcx
    have harray := (load_uses hf hx hcx).append ((lowerExpr_uses hf hi hci).append (lowerExpr_uses hf he hce))
    rw [← List.append_assoc] at harray
    exact harray.append_plain rfl

theorem lowerStmts_uses (hf : f.Slots sc m) : ∀ {ss : List Stmt} {code : List Instr} {n n' : Nat},
    (∀ s ∈ ss, sc.MarkedStmt s) → f.lowerStmts ss n = .ok (code, n') →
    Uses m code (Stmt.slotUsesAll m.variableNames ss)
  | [], _, _, _, _, h => by
    obtain ⟨rfl, -⟩ := state_pure_eq_ok.1 h
    exact .nil rfl
  | s :: ss, _, _, _, hss, h => by
    obtain ⟨hs, hss⟩ := List.forall_mem_cons.1 hss
    simp only [lowerStmts, state_bind_eq_ok, state_pure_eq_ok] at h
    obtain ⟨cs, _, hcs, css, _, hcss, rfl, -⟩ := h
    exact (lowerStmt_uses hf hs hcs).append (lowerStmts_uses hf hss hcss)

end

theorem lowerBody_uses {t : ClassTable} {c : Name} {code : List Instr} {n n' : Nat} (hf : f.Slots (m.scope t c) m)
    (hm : m.MarkedIn t c) (h : f.lowerBody m n = .ok (code, n')) : Uses m code m.slotUses := by
  simp only [lowerBody, state_bind_eq_ok, state_pure_eq_ok] at h
  obtain ⟨cb, _, hcb, cr, _, hcr, rfl, -⟩ := h
  obtain ⟨ty, hr, -⟩ := hm.result
  refine ((lowerStmts_uses hf hm.body hcb).append (lowerExpr_uses hf hr hcr)).append_plain ?_
  cases m.returns.val.isReference <;> rfl

end Frame

/-! ## Listings -/

/-- **The slots of a listing are those of the method's variables.**  The variables have the slots from 1 on, one each in
the order of the declarations, the limit counts the object's slot in, and the code loads and stores slots just as the
source uses the object and the variables.  So every slot in the code is that of a variable or, to load the object, 0. -/
structure Fits (m : Method) (l : MethodListing) : Prop where
  distinct : m.variableNames.Nodup
  names : (slotsOf m).map Prod.fst = m.variableNames
  numbers : (slotsOf m).map Prod.snd = List.range' 1 m.variableNames.length
  limit : (methodLines l)[2]? = some (".limit locals " ++ toString (m.variableNames.length + 1))
  uses : l.code.filter Instr.usesSlot = m.slotUses.map (SlotUse.instr m)
  slots : ∀ i ∈ l.code, ∀ n, i.slot? = some n → i = .aload 0 ∨ ∃ x, (x, n) ∈ slotsOf m

theorem SlotUse.slot?_instr (m : Method) (x : Name) :
    ((SlotUse.load x).instr m).slot? = some (m.slotOf x) ∧ ((SlotUse.store x).instr m).slot? = some (m.slotOf x) := by
  cases h : m.holdsReference x <;> simp [SlotUse.instr, h, Instr.slot?]

theorem SlotUse.instr_eq_or {m : Method} (hn : m.variableNames.Nodup) {u : SlotUse} (h : u.Within m.variableNames)
    {n : Nat} (hslot : (u.instr m).slot? = some n) : u.instr m = .aload 0 ∨ ∃ x, (x, n) ∈ slotsOf m := by
  have hvariable : ∀ x ∈ m.variableNames, (x, m.slotOf x) ∈ slotsOf m := fun x hx => by
    have hidx : m.variableNames[m.variableNames.idxOf x]? = some x :=
      List.getElem?_eq_some_iff.2 ⟨List.idxOf_lt_length_iff.2 hx, List.getElem_idxOf _⟩
    exact mem_of_valueOf?_eq_some ((valueOf?_slotsOf hn).2 ⟨Nat.le_add_left 1 _, hidx⟩)
  cases u with
  | object => exact .inl rfl
  | load x =>
    cases Option.some.inj ((SlotUse.slot?_instr m x).1.symm.trans hslot)
    exact .inr ⟨x, hvariable x h⟩
  | store x =>
    cases Option.some.inj ((SlotUse.slot?_instr m x).2.symm.trans hslot)
    exact .inr ⟨x, hvariable x h⟩

theorem Lists.fits {interfaces : Table Name Interface} {t : ClassTable} {c : Name} {m : Method} {l : MethodListing}
    (h : Lists interfaces c m l) (hm : m.MarkedIn t c) : Fits m l := by
  obtain ⟨n, n', hcode⟩ := h.code
  have huses := Frame.lowerBody_uses (slots_method hm.distinct interfaces t c) hm hcode
  have hslots : slotsOf m = m.variableNames.zipIdx 1 := numberFrom_of_nodup hm.distinct
  refine ⟨hm.distinct, ?_, ?_, ?_, huses.code, fun i hi n hslot => ?_⟩
  · rw [hslots, List.zipIdx_map_fst]
  · rw [hslots, List.zipIdx_map_snd]
  · show some (".limit locals " ++ toString l.slots) = _
    rw [h.slots, hslots, List.length_zipIdx]
  · have hmem : i ∈ m.slotUses.map (SlotUse.instr m) := by
      rw [← huses.code, List.mem_filter]
      exact ⟨hi, by rw [Instr.usesSlot, hslot]; rfl⟩
    obtain ⟨u, hu, rfl⟩ := List.mem_map.1 hmem
    exact SlotUse.instr_eq_or hm.distinct (huses.within u hu) hslot

end Assembly

/-- **In every elaborated program the slots of each method fit its variables.** -/
theorem slots_fit (p : Program) (dump : Dump) (e : Elaborated) (h : (p.elaborate dump).result = .ok e) :
    ∃ code classes, (lowerProgram e.program).result = .ok (.main e.program.main.name.val code :: classes.map .cls) ∧
      List.Forall₂ (fun (c : ClassDecl) (l : ClassListing) => l.name = c.name.val ∧
        List.Forall₂ Fits c.methods l.methods) e.program.classes classes := by
  obtain ⟨hsound, -⟩ := elaborate_sound h
  obtain ⟨ls, hls⟩ := lowerProgram_total hsound
  obtain ⟨interfaces, code, _, _, classes, -, -, hclasses, rfl⟩ := lowerProgram_sound hls
  refine ⟨code, classes, hls, ?_⟩
  refine ((List.forall₂_and_left _ _).2 ⟨hsound.marked.methods, hclasses⟩).imp fun c l ⟨hms, hname, hl⟩ => ⟨hname, ?_⟩
  exact ((List.forall₂_and_left _ _).2 ⟨hms, hl⟩).imp fun m l ⟨hm, hl⟩ => hl.fits hm

namespace Sample

/-- A method with two formals and two locals that reads and writes a field, arrays and variables of each type. -/
def stores : Program :=
  ⟨⟨name "Main", name "args", .print (.literal mark 0)⟩,
    [⟨name "A", none, [declare "n" .int],
      [⟨name "m", ⟨.int, mark.span⟩, [declare "a" .int, declare "b" .intArray],
        [declare "c" (.object "A"), declare "d" .int],
        [.assign (use "c") (.self mark), .assign (use "d") (read "a"), .store (use "b") (read "d") (read "n"),
          .assign (use "n") (.index mark (read "b") (read "a"))],
        .call mark (read "c") (name "m") [read "d", read "b"] none⟩]⟩]⟩

end Sample

theorem slots_fit_on_stores : ∃ e code, ∃ classes : List ClassListing,
    (Sample.stores.elaborate ⟨false, false⟩).result = .ok e ∧
    (lowerProgram e.program).result = .ok (.main "Main" code :: classes.map .cls) ∧
    classes.map (fun c => c.methods.map fun l => l.code.filter Instr.usesSlot) =
      [[[.aload 0, .astore 3, .iload 1, .istore 4, .aload 2, .iload 4, .aload 0, .aload 0, .aload 2, .iload 1, .aload 3,
        .iload 4, .aload 2]]] := by
  obtain ⟨code, classes, hls, hclasses⟩ := slots_fit Sample.stores ⟨false, false⟩ _ rfl
  refine ⟨_, code, classes, rfl, hls, ?_⟩
  obtain ⟨_, _, ⟨-, hmethods⟩, hnil, rfl⟩ := List.forall₂_cons_left_iff.1 hclasses
  cases hnil
  obtain ⟨_, _, hfits, hnil, hl⟩ := List.forall₂_cons_left_iff.1 hmethods
  cases hnil
  simp only [List.map_cons, List.map_nil, hl, hfits.uses]
  rfl

end MiniJava
