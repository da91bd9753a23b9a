import MiniJava.Proofs.Assembly.StackTypes
import MiniJava.Proofs.Native.Programs
/-!
# The types of C units

C is stricter than the program is: a pointer to a structure stands for no other pointer.  Every expression that lowering
makes has the one type that is asked for where it stands (`CTyped`), since a value that comes as an object of a descendant
is cast.  So the functions of a sound program are well typed (`Function.WellTyped`), and so is the main function.

An expression has at most one type (`CTyped.unique`): what is well typed is so without any conversion but the casts that
are in it, and these go from a class to its proper ancestors.
-/
namespace MiniJava

open CUnit

/-- Booleans are integers to C, so that all operators work on integers. -/
theorem Op.operandType_storage (op : Op) : op.operandType.storage = .int := by cases op <;> rfl

theorem Op.resultType_storage (op : Op) : op.resultType.storage = .int := by cases op <;> rfl

namespace CUnit

/-- The type that a place is declared with, in code of the class `here`. -/
def Site.storage? (site : Site) (here : Option Name) : Place → Option Storage
  | .frame x => valueOf? x site.locals
  | .formal x => valueOf? x site.formals
  | .field x => here.bind (site.unit.fieldStorage? · x)

section

variable (t : ClassTable) (site : Site) (here : Option Name)

/-- **The type of an expression of C.**  A call takes a receiver of the very class that its temporary is declared with, and
arguments of the very types of the formals. -/
inductive CTyped : CExpr → Storage → Prop
  | int {n : Int} : CTyped (.int n) .int
  | self {c : Name} : here = some c → CTyped .self (.object c)
  | read {p : Place} {s : Storage} : site.storage? here p = some s → CTyped (.read p) s
  | binary {l r : CExpr} {op : Op} : CTyped l .int → CTyped r .int → CTyped (.binary l op r) .int
  | not {e : CExpr} : CTyped e .int → CTyped (.not e) .int
  | index {a i : CExpr} : CTyped a .intArray → CTyped i .int → CTyped (.index a i) .int
  | length {a : CExpr} : CTyped a .intArray → CTyped (.length a) .int
  | newArray {e : CExpr} : CTyped e .int → CTyped (.newArray e) .intArray
  | newObject {c : Name} {layout : Layout} {vtable : Vtable} :
      site.unit.layout? c = some layout → site.unit.vtable? c = some vtable → CTyped (.newObject c) (.object c)
  | call {n : Nat} {r : CExpr} {m : Name} {es : List CExpr} {c : Name} {slot : Slot} :
      valueOf? n site.temps = some (.object c) → site.unit.slot? c m = some slot → CTyped r (.object c) →
      List.Forall₂ CTyped es slot.formals → CTyped (.call n r m es) slot.returns
  | cast {e : CExpr} {c a : Name} : CTyped e (.object c) → a ∈ t.ancestors c → a ≠ c →
      CTyped (.cast (.object a) e) (.object a)

/-- **The statements that C accepts.** -/
inductive CAccepts : CStmt → Prop
  | block {body : List CStmt} : (∀ s ∈ body, CAccepts s) → CAccepts (.block body)
  | ite {c : CExpr} {yes no : CStmt} :
      CTyped t site here c .int → CAccepts yes → CAccepts no → CAccepts (.ite c yes no)
  | loop {c : CExpr} {body : CStmt} : CTyped t site here c .int → CAccepts body → CAccepts (.loop c body)
  | print {e : CExpr} : CTyped t site here e .int → CAccepts (.print e)
  | assign {p : Place} {e : CExpr} {s : Storage} :
      site.storage? here p = some s → CTyped t site here e s → CAccepts (.assign p e)
  | store {p : Place} {i e : CExpr} : site.storage? here p = some .intArray → CTyped t site here i .int →
      CTyped t site here e .int → CAccepts (.store p i e)

end

/-- **A well-typed function of the unit**: no name is declared twice, the body is accepted, and the result has the very type
that the function returns. -/
structure Function.WellTyped (t : ClassTable) (u : CUnit) (f : Function) : Prop where
  distinct : ((f.formals ++ f.locals).map Prod.fst).Nodup
  temps : (f.temps.map Prod.fst).Nodup
  body : ∀ s ∈ f.body, CAccepts t (f.site u) (some f.cls) s
  result : CTyped t (f.site u) (some f.cls) f.result f.returns

structure MainFunction.WellTyped (t : ClassTable) (u : CUnit) (main : MainFunction) : Prop where
  temps : (main.temps.map Prod.fst).Nodup
  body : CAccepts t ⟨u, [], [], main.temps⟩ none main.body

variable {t : ClassTable} {site : Site} {here : Option Name}

/-- **No expression has two types.** -/
theorem CTyped.unique {e : CExpr} {s s' : Storage} (h : CTyped t site here e s) (h' : CTyped t site here e s') :
    s = s' := by
  cases h with
  | int | binary _ _ | not _ | index _ _ | length _ | newArray _ | newObject _ _ | cast _ _ _ =>
    cases h'
    rfl
  | self hc =>
    cases h' with | self hc' =>
    rw [Option.some.inj (hc.symm.trans hc')]
  | read hs =>
    cases h' with | read hs' => exact Option.some.inj (hs.symm.trans hs')
  | call htemp hslot _ _ =>
    cases h' with
    | call htemp' hslot' _ _ =>
      cases htemp.symm.trans htemp'
      rw [Option.some.inj (hslot.symm.trans hslot')]

/-! ## What lowering makes -/

/-- **A site where everything is declared with the type that it has in the scope.** -/
structure Site.Declares (site : Site) (here : Option Name) (sc : Scope) : Prop extends site.Serves sc where
  current : ∀ c, sc.current = some c → here = some c
  formalTypes : ∀ x ty, sc.locals.get? x = some ty → x ∈ site.formalNames → valueOf? x site.formals = some ty.storage
  localTypes : ∀ x ty, sc.locals.get? x = some ty → x ∉ site.formalNames → valueOf? x site.locals = some ty.storage
  classes : ∀ c, sc.classes.isType c = true →
    ∃ layout vtable, site.unit.layout? c = some layout ∧ site.unit.vtable? c = some vtable

variable {sc : Scope}

/-- A place is declared with the type of the variable. -/
theorem storage?_placeOf (hsite : site.Declares here sc) {x : Variable} {ty : Ty} {home : Home} {place : Place}
    (h : sc.MarkedVariable x ty home) (hp : placeOf site.formalNames x = .ok place) :
    site.storage? here place = some ty.storage := by
  obtain ⟨hfinds⟩ := h
  cases hfinds with
  | @method _ hget =>
    cases placeOf_method_eq_ok.1 hp
    split
    · rename_i hx
      exact hsite.formalTypes _ _ hget hx
    · rename_i hx
      exact hsite.localTypes _ _ hget hx
  | object _ hcurrent hfield =>
    cases placeOf_object_eq_ok.1 hp
    rw [Site.storage?, hsite.current _ hcurrent]
    exact hsite.fields _ _ _ hcurrent hfield

/-- **What is coerced has the type that is expected**, by a cast to a proper ancestor or as it is. -/
theorem CTyped.coerce {e : CExpr} {found expected : Ty} (h : CTyped t site here e found.storage)
    (hcompatible : t.compatible found expected = true) :
    CTyped t site here (coerce found.storage expected.storage e) expected.storage := by
  have hfits := ClassTable.fits_of_compatible hcompatible
  cases hfound : found.storage <;> cases hexpected : expected.storage <;> rw [hfound, hexpected] at hfits <;>
    rw [hfound] at h <;> try cases hfits
  · exact h
  · exact h
  · rename_i c a
    by_cases heq : c = a
    · subst heq
      rw [CUnit.coerce, if_pos rfl]
      exact h
    · rw [CUnit.coerce, if_neg heq]
      exact .cast h hfits (Ne.symm heq)

mutual

/-- **The code of an expression has the type of the expression, as values are held.** -/
theorem LowersExpr.typed (hsite : site.Declares here sc) : ∀ {e : Expr} {ts ts' : TempList} {c : CExpr} {ty : Ty},
    LowersExpr site.formalNames e ts c ts' → sc.Marked e ty → ts' <+: site.temps →
    CTyped sc.classes site here c ty.storage
  | _, _, _, _, _, .literal, .literal, _ | _, _, _, _, _, .bool, .bool, _ => .int
  | _, _, _, _, _, .self, .self hcurrent, _ => .self (hsite.current _ hcurrent)
  | _, _, _, _, _, .read hp, .read hx, _ => .read (storage?_placeOf hsite hx hp)
  | _, _, _, _, _, .binary hcl hcr, .binary hl hr, hts => by
    have hl := hcl.typed hsite hl (hcr.continues.before.trans hts)
    have hr := hcr.typed hsite hr hts
    rw [Op.operandType_storage] at hl hr
    rw [Op.resultType_storage]
    exact .binary hl hr
  | _, _, _, _, _, .not hc, .not he, hts => .not (hc.typed hsite he hts)
  | _, _, _, _, _, .index hca hci, .index ha hi, hts =>
    .index (hca.typed hsite ha (hci.continues.before.trans hts)) (hci.typed hsite hi hts)
  | _, _, _, _, _, .length hc, .length he, hts => .length (hc.typed hsite he hts)
  | _, _, _, _, _, .newArray hc, .newArray he, hts => .newArray (hc.typed hsite he hts)
  | _, _, _, _, _, .newObject, .newObject hc, _ => by
    obtain ⟨layout, vtable, hlayout, hvtable⟩ := hsite.classes _ hc
    exact .newObject hlayout hvtable
  | _, _, _, _, _, .call hres hcr hces, .call hr hm hes hcompatible, hts => by
    cases hres
    have htr := hces.continues.before.trans hts
    have htemp := hsite.temps.valueOf? (hcr.continues.before.trans htr)
    obtain ⟨slot, hslot, hformals, hreturns⟩ := hsite.methods _ _ _ hm
    have harguments := hces.typed hsite hes hcompatible hts
    rw [← hformals] at harguments
    rw [← hreturns]
    exact .call htemp hslot (hcr.typed hsite hr htr) harguments
termination_by structural e => e

/-- The code of arguments has the types of the formals. -/
theorem LowersArguments.typed (hsite : site.Declares here sc) : ∀ {expected : List Ty} {es : List Expr}
    {ts ts' : TempList} {cs : List CExpr} {tys : List Ty}, LowersArguments site.formalNames expected es ts cs ts' →
    List.Forall₂ sc.Marked es tys → List.Forall₂ (fun ty formal => sc.classes.compatible ty formal = true) tys expected →
    ts' <+: site.temps → List.Forall₂ (CTyped sc.classes site here) cs (expected.map Ty.storage)
  | _, _, _, _, _, _, .noFormals, _, _, _ => .nil
  | _, _, _, _, _, _, .noArguments, hes, hcompatible, _ => by
    cases hes
    cases hcompatible
    exact .nil
  | _, _, _, _, _, _, .cons hty hc hcs, .cons he hes, .cons hcompatible hrest, hts => by
    cases hty.symm.trans (markedType_eq_ok he)
    have hvalue := hc.typed hsite he (hcs.continues.before.trans hts)
    exact .cons (hvalue.coerce hcompatible) (hcs.typed hsite hes hrest hts)
termination_by structural _ es => es

end

mutual

/-- **C accepts the code of every statement.** -/
theorem LowersStmt.accepted (hsite : site.Declares here sc) : ∀ {s : Stmt} {ts ts' : TempList} {c : CStmt},
    LowersStmt site.formalNames s ts c ts' → sc.MarkedStmt s → ts' <+: site.temps → CAccepts sc.classes site here c
  | _, _, _, _, .block hcb, .block hb, hts => .block (hcb.accepted hsite hb hts)
  | _, _, _, _, .ite hcc hcy hcn, .ite hc hy hn, hts => by
    have hty := hcn.continues.before.trans hts
    have htc := hcy.continues.before.trans hty
    exact .ite (hcc.typed hsite hc htc) (hcy.accepted hsite hy hty) (hcn.accepted hsite hn hts)
  | _, _, _, _, .loop hcc hcb, .loop hc hb, hts =>
    .loop (hcc.typed hsite hc (hcb.continues.before.trans hts)) (hcb.accepted hsite hb hts)
  | _, _, _, _, .print hc, .print he, hts => .print (hc.typed hsite he hts)
  | _, _, _, _, .assign hp hc, .assign hx he, hts => .assign (storage?_placeOf hsite hx hp) (hc.typed hsite he hts)
  | _, _, _, _, .store hp hci hc, .store hx hi he, hts =>
    .store (storage?_placeOf hsite hx hp) (hci.typed hsite hi (hc.continues.before.trans hts)) (hc.typed hsite he hts)
termination_by structural s => s

theorem LowersStmts.accepted (hsite : site.Declares here sc) : ∀ {ss : List Stmt} {ts ts' : TempList} {cs : List CStmt},
    LowersStmts site.formalNames ss ts cs ts' → (∀ s ∈ ss, sc.MarkedStmt s) → ts' <+: site.temps →
    ∀ c ∈ cs, CAccepts sc.classes site here c
  | _, _, _, _, .nil, _, _ => nofun
  | _, _, _, _, .cons hc hcs, hss, hts => by
    obtain ⟨hs, hss⟩ := List.forall_mem_cons.1 hss
    refine List.forall_mem_cons.2 ⟨hc.accepted hsite hs (hcs.continues.before.trans hts), hcs.accepted hsite hss hts⟩
termination_by structural ss => ss

end

/-! ## Units -/

variable {p : Program} {u : CUnit}

theorem exists_shape_of_isType (h : p.Declarations t) (hu : (lowerProgram p).result = .ok u) {c : Name}
    (hc : t.isType c = true) : ∃ layout vtable, u.layout? c = some layout ∧ u.vtable? c = some vtable := by
  obtain ⟨-, -, hshapes⟩ := h.shapes_of_lowerProgram hu
  obtain ⟨d, hd, rfl⟩ := h.isType_iff.1 hc
  obtain ⟨_, -, hlayout, hvtable⟩ := hshapes d hd
  exact ⟨_, _, hlayout, hvtable⟩

theorem declares_mainSite (h : p.Declarations t) (hu : (lowerProgram p).result = .ok u)
    (hc : lowerStmt [] p.main.body [] = .ok (u.main.body, u.main.temps)) : (mainSite u).Declares none t.mainScope where
  toServes := serves_mainSite (knows_of_lowerProgram h hu) hc
  current := fun _ h => by cases h
  formalTypes := fun _ _ h => by cases h
  localTypes := fun _ _ h => by cases h
  classes := fun _ => exists_shape_of_isType h hu

section

variable {c : ClassDecl} {m : Method} {f : Function}

/-- A function declares each variable of its method, with the variable's type. -/
theorem Defines.valueOf?_variables (hf : Defines c.name.val m f) (hm : m.MarkedIn t c.name.val) {x : Name} {ty : Ty}
    (hx : (m.scope t c.name.val).locals.get? x = some ty) :
    (valueOf? x f.formals).or (valueOf? x f.locals) = some ty.storage := by
  have hvariables : f.formals ++ f.locals = m.variables.map fun e => (e.1, e.2.storage) := by
    rw [hf.formals, hf.locals, ← List.map_append, Method.variables, List.map_map]
    rfl
  have hdistinct : (m.variables.map Prod.fst).Nodup := by
    rw [Method.variables, List.map_map]
    exact hm.distinct
  have hget : (Table.ofList m.variables).get? x = some ty := hx
  rw [Table.get?, Table.entries_ofList hdistinct] at hget
  rw [← valueOf?_append, hvariables, valueOf?_map fun _ ty => Ty.storage ty, hget]
  rfl

theorem Defines.declares_site (hf : Defines c.name.val m f) (hm : m.MarkedIn t c.name.val) (h : p.Declarations t)
    (hu : (lowerProgram p).result = .ok u) (hc : c ∈ p.classes) :
    (f.site u).Declares (some f.cls) (m.scope t c.name.val) where
  toServes := hf.serves_site (knows_of_lowerProgram h hu) hc
  current := fun _ hcurrent => by
    rw [hf.cls]
    exact hcurrent
  formalTypes := fun x ty hx hformal => by
    have hvalue : (valueOf? x (f.site u).formals).or (valueOf? x (f.site u).locals) = _ := hf.valueOf?_variables hm hx
    obtain ⟨s, hs⟩ := Option.ne_none_iff_exists'.1 fun hnone => valueOf?_eq_none_iff.1 hnone hformal
    rwa [hs, Option.some_or, ← hs] at hvalue
  localTypes := fun x ty hx hformal => by
    have hvalue : (valueOf? x (f.site u).formals).or (valueOf? x (f.site u).locals) = _ := hf.valueOf?_variables hm hx
    rwa [valueOf?_eq_none_iff.2 hformal, Option.none_or] at hvalue
  classes := fun _ => exists_shape_of_isType h hu

/-- **The function of a method is well typed.** -/
theorem Defines.wellTyped (hf : Defines c.name.val m f) (hm : m.MarkedIn t c.name.val) (h : p.Declarations t)
    (hu : (lowerProgram p).result = .ok u) (hc : c ∈ p.classes) : f.WellTyped t u := by
  have hsite := hf.declares_site hm h hu hc
  obtain ⟨ts, found, code, hcb, hfound, hcr, hresult⟩ := hf.exists_parts
  obtain ⟨ty, hr, hcompatible⟩ := hm.result
  cases hfound.symm.trans (markedType_eq_ok hr)
  have hts : ts <+: (f.site u).temps := hcr.continues.before
  rw [← hf.formalNames_site (u := u)] at hcb hcr
  constructor
  · rw [List.map_append, hf.formals, hf.locals, ← List.map_append, ← List.map_append, List.map_map]
    exact hm.distinct
  · have hnumbered : Numbered f.temps := hsite.temps
    exact hnumbered ▸ List.nodup_range
  · exact hcb.accepted hsite hm.body hts
  · rw [← hresult, hf.returns]
    exact (hcr.typed hsite hr List.prefix_rfl).coerce hcompatible

end

end CUnit

/-- **The functions of an elaborated program are well typed.**  Whatever the program, once it has been elaborated it has a
unit whose main function is well typed, and a function for each method, declared with the method's own types.  All of
these are well typed: no value stands where another type than its own is expected, and an object that stands for one of
another class is cast to it, from a descendant. -/
theorem functions_well_typed (p : Program) (dump : Dump) (e : Elaborated) (h : (p.elaborate dump).result = .ok e) :
    ∃ u, (lowerProgram e.program).result = .ok u ∧ u.main.WellTyped e.classes u ∧
      (∀ f ∈ u.functions, f.WellTyped e.classes u) ∧
      ∃ functions, u.functions = functions.flatten ∧
        List.Forall₂ (fun (c : ClassDecl) fs => List.Forall₂ (Defines c.name.val) c.methods fs) e.program.classes
          functions := by
  obtain ⟨hsound, -⟩ := elaborate_sound h
  obtain ⟨u, hu⟩ := lowerProgram_total hsound
  obtain ⟨_, functions, -, -, -, hfunctions, hflat, hmain⟩ := lowerProgram_sound hu
  have hsite := declares_mainSite hsound.declarations hu hmain
  refine ⟨u, hu, ⟨?_, ?_⟩, fun f hf => ?_, functions, hflat, hfunctions⟩
  · have hnumbered : Numbered u.main.temps := hsite.temps
    exact hnumbered ▸ List.nodup_range
  · exact (lowersStmt_of_lowerStmt hmain).accepted hsite hsound.marked.main List.prefix_rfl
  · rw [hflat] at hf
    obtain ⟨fs, hfs, hf⟩ := List.mem_flatten.1 hf
    obtain ⟨c, hc, hdefines⟩ := forall₂_mem_right hfunctions fs hfs
    obtain ⟨m, hm, hdefine⟩ := forall₂_mem_right hdefines f hf
    exact hdefine.wellTyped (hsound.marked.methods c hc m hm) hsound.declarations hu hc

/-- The unit of a program whose calls take an object of a descendant. -/
theorem functions_well_typed_on_sample : ∃ e u, (Sample.program.elaborate ⟨true, true⟩).result = .ok e ∧
    (lowerProgram e.program).result = .ok u ∧ u.main.WellTyped e.classes u ∧
    (∀ f ∈ u.functions, f.WellTyped e.classes u) := by
  obtain ⟨u, hu, hmain, hfunctions, -⟩ := functions_well_typed Sample.program ⟨true, true⟩ _ rfl
  exact ⟨_, u, rfl, hu, hmain, hfunctions⟩

end MiniJava
