import MiniJava.Proofs.Inheritance.Accesses
import MiniJava.Proofs.Native.Programs
/-!
# C functions keep the meaning of methods

A function starts with its arguments and with 0 in every local, as its method does, and from there on the two have the
same runs (`functions_keep_meaning`): the same requests in the same order, fields of the object and calls with their
receivers and arguments among them, the same value, and in the end the same in every variable.  Both pass over the right
operand of `&&` where the left one is 0.

What a run asks the fields of its object for goes by names that the code has as members (`CExec.asksFor`), and these are no
names of variables: a variable that shadows a field keeps it out of reach.
-/
namespace MiniJava

open CUnit

/-! ## Fields in a trace -/

namespace Execution

/-- The field that a request is about. -/
def Request.field? {Ref : Type} : Request Ref → Option Name
  | getField _ f _ _ | putField _ f _ _ _ => some f
  | _ => none

/-- A run asks for these fields and no other. -/
def Trace.AsksFor {Ref : Type} (t : Trace Ref) (fields : List Name) : Prop :=
  ∀ ev ∈ t, ∀ f, ev.request.field? = some f → f ∈ fields

variable {Ref S : Type}

namespace Trace.AsksFor

variable {t t' : Trace Ref} {fs gs : List Name}

theorem nil : AsksFor ([] : Trace Ref) fs := nofun

theorem mono (h : t.AsksFor fs) (hsub : fs ⊆ gs) : t.AsksFor gs := fun ev hev f hf => hsub (h ev hev f hf)

theorem append (h : t.AsksFor fs) (h' : t'.AsksFor gs) : AsksFor (t ++ t') (fs ++ gs) := fun ev hev f hf =>
  (List.mem_append.1 hev).elim (fun hev => List.mem_append_left _ (h ev hev f hf))
    fun hev => List.mem_append_right _ (h' ev hev f hf)

theorem single {ev : Event Ref} {f : Name} (h : ev.request.field? = some f) : AsksFor [ev] [f] := by
  intro e he g hg
  cases List.mem_singleton.1 he
  cases h.symm.trans hg
  exact List.mem_singleton_self f

/-- One more request, which is about no field. -/
theorem concat (h : t.AsksFor fs) {ev : Event Ref} (hev : ev.request.field? = none) : AsksFor (t ++ [ev]) fs := by
  intro e he f hf
  rcases List.mem_append.1 he with he | he
  · exact h e he f hf
  · cases List.mem_singleton.1 he
    cases hev.symm.trans hf

end Trace.AsksFor

variable {host : Host Ref S} {act : Activation Ref} {site : Site}

theorem CReads.asksFor {cells : Cells Ref} {p : Place} {s s' : S} {t : Trace Ref} {v : Value Ref}
    (h : CReads host act site cells p s t v s') : t.AsksFor p.member?.toList := by
  cases h with
  | frame _ | formal _ => exact .nil
  | field _ _ _ => exact .single rfl

mutual

/-- **The value of an expression is made with the members that the expression reads.** -/
theorem CEval.asksFor {cells : Cells Ref} : ∀ {c : CExpr} {τ τ' : Temps Ref} {s s' : S} {t : Trace Ref} {v : Value Ref},
    CEval host act site cells c τ s t v τ' s' → t.AsksFor c.members
  | _, _, _, _, _, _, _, .int | _, _, _, _, _, _, _, .self _ => .nil
  | _, _, _, _, _, _, _, .read h => h.asksFor
  | _, _, _, _, _, _, _, .binary _ hl hr | _, _, _, _, _, _, _, .both hl _ hr => hl.asksFor.append hr.asksFor
  | _, _, _, _, _, _, _, .skip hl => hl.asksFor.mono (List.subset_append_left _ _)
  | _, _, _, _, _, _, _, .not he | _, _, _, _, _, _, _, .cast he => he.asksFor
  | _, _, _, _, _, _, _, .index ha hi _ => (ha.asksFor.append hi.asksFor).concat rfl
  | _, _, _, _, _, _, _, .length ha _ => ha.asksFor.concat rfl
  | _, _, _, _, _, _, _, .newArray he _ => he.asksFor.concat rfl
  | _, _, _, _, _, _, _, .newObject _ => Trace.AsksFor.nil.concat rfl
  | _, _, _, _, _, _, _, .call hr hes _ _ _ _ => (hr.asksFor.append hes.asksFor).concat rfl

theorem CEvalAll.asksFor {cells : Cells Ref} : ∀ {cs : List CExpr} {τ τ' : Temps Ref} {s s' : S} {t : Trace Ref}
    {vs : List (Value Ref)}, CEvalAll host act site cells cs τ s t vs τ' s' → t.AsksFor (CExpr.membersAll cs)
  | _, _, _, _, _, _, _, .nil => .nil
  | _, _, _, _, _, _, _, .cons he hes => he.asksFor.append hes.asksFor

end

/-- **A statement reads and writes the members that are in it.** -/
theorem CExec.asksFor {c : CStmt} {cells cells' : Cells Ref} {τ τ' : Temps Ref} {s s' : S} {t : Trace Ref}
    (h : CExec host act site c cells τ s t cells' τ' s') : t.AsksFor c.members := by
  induction h with
  | nil => exact .nil
  | cons _ _ ih ih' => exact ih.append ih'
  | iteTrue he _ _ ih => exact (he.asksFor.mono (List.subset_append_left _ _)).append ih
  | iteFalse he _ ih => exact (he.asksFor.append ih).mono (List.subset_append_left _ _)
  | loop he _ _ _ ih ih' => exact ((he.asksFor.append ih).append ih').mono (List.append_subset.2 ⟨fun _ h => h, fun _ h => h⟩)
  | loopDone he | assignFrame _ he | assignFormal _ he => exact he.asksFor.mono (List.subset_append_left _ _)
  | print he _ => exact he.asksFor.concat rfl
  | assignField _ _ he _ => exact he.asksFor.append (.single rfl)
  | store hx hi he _ => exact ((hx.asksFor.append hi.asksFor).append he.asksFor).concat rfl

theorem CReturns.asksFor {u : CUnit} {f : Function} {o : Ref} {cells cells' : Cells Ref} {s s' : S} {t : Trace Ref}
    {v : Value Ref} (h : CReturns host u f o cells s t v cells' s') : t.AsksFor f.members := by
  obtain ⟨hbody, hresult⟩ := h
  exact hbody.asksFor.append hresult.asksFor

end Execution

open Execution

variable {Ref S : Type}

/-! ## Where a call begins -/

/-- What a local begins with: 0, which is the reference to nothing where it is a reference. -/
def Execution.Value.initial (null : Ref) (reference : Bool) : Value Ref := if reference then .ref null else .int 0

/-- What the variables of a method hold when it is called: the formals the arguments, and the locals 0. -/
def Method.entry (m : Method) (null : Ref) (arguments : List (Value Ref)) : Env Ref := fun x =>
  ((valueOf? x (m.formalNames.zip arguments)).or
    (valueOf? x (m.locals.map fun d => (d.name.val, .initial null d.ty.val.isReference)))).getD (.int 0)

/-- What a function holds when it is called, once it has set its frame to 0. -/
def CUnit.Function.entry (f : Function) (null : Ref) (arguments : List (Value Ref)) : Cells Ref where
  formals := fun x => (valueOf? x ((f.formals.map Prod.fst).zip arguments)).getD (.int 0)
  frame := fun x => (valueOf? x (f.locals.map fun d => (d.1, .initial null d.2.isReference))).getD (.int 0)

/-- **The function's arguments and frame hold what the variables of the method do.** -/
structure Method.Matches (m : Method) (cells : Cells Ref) (env : Env Ref) : Prop where
  formals : ∀ x ∈ m.formalNames, cells.formals x = env x
  frame : ∀ x, x ∉ m.formalNames → cells.frame x = env x

theorem Method.matches_iff {m : Method} {cells : Cells Ref} {env : Env Ref} :
    m.Matches cells env ↔ cells.env m.formalNames = env := by
  constructor
  · intro h
    funext x
    by_cases hx : x ∈ m.formalNames
    · rw [cells.env_formal hx, h.formals x hx]
    · rw [cells.env_frame hx, h.frame x hx]
  · rintro rfl
    exact ⟨fun x hx => (cells.env_formal hx).symm, fun x hx => (cells.env_frame hx).symm⟩

theorem CUnit.Defines.matches_entry {c : Name} {m : Method} {f : Function} (hf : Defines c m f)
    (hdistinct : ((m.formals ++ m.locals).map (·.name.val)).Nodup) (null : Ref) (arguments : List (Value Ref)) :
    m.Matches (f.entry null arguments) (m.entry null arguments) := by
  have hformals : f.formals.map Prod.fst = m.formalNames := by
    rw [hf.formals, List.map_map]
    rfl
  have hlocals : (f.locals.map fun d => (d.1, Value.initial null d.2.isReference)) =
      m.locals.map fun d => (d.name.val, .initial null d.ty.val.isReference) := by
    rw [hf.locals, List.map_map]
    rfl
  constructor
  · intro x hx
    have hnone : valueOf? x (m.locals.map fun d => (d.name.val, Value.initial null d.ty.val.isReference)) = none := by
      rw [valueOf?_eq_none_iff, List.map_map]
      rw [List.map_append] at hdistinct
      exact fun hlocal => List.disjoint_of_nodup_append hdistinct hx hlocal
    rw [Method.entry, hnone, Option.or_none, Function.entry, hformals]
  · intro x hx
    have hnone : valueOf? x (m.formalNames.zip arguments) = none := by
      rw [valueOf?_eq_none_iff]
      intro hmem
      obtain ⟨e, he, rfl⟩ := List.mem_map.1 hmem
      exact hx (List.of_mem_zip he).1
    rw [Method.entry, hnone, Option.none_or, Function.entry, hlocals]

/-! ## Runs -/

/-- **A function that has the runs of its method and no others**, from wherever the two match. -/
structure Method.KeptBy (host : Execution.Host Ref S) (u : CUnit) (c : Name) (m : Method) (f : Function) : Prop where
  /-- They match where a call begins. -/
  begins : ∀ (null : Ref) arguments, m.Matches (f.entry null arguments) (m.entry null arguments)
  performs : ∀ o cells env, m.Matches cells env → ∀ s t v env' s',
    LazyMethod host ⟨c, some o⟩ anything m env s t v env' s' →
      ∃ cells', CReturns host u f o cells s t v cells' s' ∧ m.Matches cells' env'
  only : ∀ o cells env, m.Matches cells env → ∀ s t v cells' s', CReturns host u f o cells s t v cells' s' →
    ∃ env', LazyMethod host ⟨c, some o⟩ anything m env s t v env' s' ∧ m.Matches cells' env'
  /-- A field whose name a formal or a local has is neither read nor written. -/
  shadowed : ∀ o cells s t v cells' s', CReturns host u f o cells s t v cells' s' →
    ∀ d ∈ m.formals ++ m.locals, ∀ ev ∈ t, ev.request.field? ≠ some d.name.val

/-- **A main function that has the runs of its main class and no others**, and knows of no fields. -/
structure MainClass.KeptBy (host : Execution.Host Ref S) (u : CUnit) (main : MainClass) : Prop where
  runs : ∀ (cells : Cells Ref) s t s',
    (∃ cells' τ, CExec host ⟨main.name.val, none⟩ (mainSite u) u.main.body cells .unset s t cells' τ s') ↔
      ∃ env', LazyExec host ⟨main.name.val, none⟩ anything main.body (cells.env []) s t env' s'
  fieldless : ∀ (cells : Cells Ref) s t cells' τ s',
    CExec host ⟨main.name.val, none⟩ (mainSite u) u.main.body cells .unset s t cells' τ s' →
      ∀ ev ∈ t, ev.request.field? = none

variable {host : Execution.Host Ref S} {p : Program} {t : ClassTable} {u : CUnit}

theorem Method.MarkedIn.keptBy {c : ClassDecl} {m : Method} {f : Function} (hm : m.MarkedIn t c.name.val)
    (hu : u.Knows p t) (hc : c ∈ p.classes) (hf : Defines c.name.val m f) : m.KeptBy host u c.name.val f where
  begins := hf.matches_entry hm.distinct
  performs := fun o cells env henv s tr v env' s' h => by
    rw [← Method.matches_iff.1 henv] at h
    obtain ⟨cells', hreturns, henv'⟩ := (cReturns_iff hu hc hm hf).2 h
    exact ⟨cells', hreturns, Method.matches_iff.2 henv'⟩
  only := fun o cells env henv s tr v cells' s' h => by
    refine ⟨cells'.env m.formalNames, ?_, Method.matches_iff.2 rfl⟩
    rw [← Method.matches_iff.1 henv]
    exact (cReturns_iff hu hc hm hf).1 ⟨cells', h, rfl⟩
  shadowed := fun o cells s tr v cells' s' h d hd ev hev heq => by
    have hmember := h.asksFor ev hev _ heq
    rw [accesses_of_defines hm hf] at hmember
    obtain ⟨⟨_, ty⟩, hfield, rfl⟩ := List.mem_map.1 hmember
    cases hm.finds_fields hfield with
    | object hnone _ _ =>
      refine Table.get?_eq_none_iff.1 hnone (Table.mem_keys_ofList.2 ?_)
      rw [Method.variables, List.map_map]
      exact List.mem_map_of_mem hd

theorem MainClass.keptBy {main : MainClass} (hu : u.Knows p t) (hm : t.mainScope.MarkedStmt main.body)
    (hc : lowerStmt [] main.body [] = .ok (u.main.body, u.main.temps)) : main.KeptBy host u where
  runs := fun _ _ _ _ => cExec_main_iff hu hm hc
  fieldless := fun cells s tr cells' τ s' h ev hev => by
    refine Option.eq_none_iff_forall_ne_some.2 fun x hx => ?_
    have hmember := h.asksFor ev hev x hx
    rw [(lowersStmt_of_lowerStmt hc).members hm] at hmember
    obtain ⟨⟨_, ty⟩, hfield, rfl⟩ := List.mem_map.1 hmember
    cases hm.finds_fields hfield with
    | object _ hcurrent _ => cases hcurrent

/-- **C keeps the meaning of every elaborated program.**  Whatever the program, once it has been elaborated its main function
has the runs of its main class, and the function of each method those of the method, whatever the host that prints, makes
and reads arrays and objects and runs the methods that are called.  A call begins with the arguments in the formals and 0
in the locals, and a run of the one is a run of the other with the same requests in the same order, the same value, the
same state of the host, with the fields in it, and the same in every variable at the end.  A variable that shadows a field
never touches it. -/
theorem functions_keep_meaning (p : Program) (dump : Dump) (e : Elaborated) (h : (p.elaborate dump).result = .ok e) :
    ∃ u functions, (lowerProgram e.program).result = .ok u ∧ u.functions = functions.flatten ∧
      (∀ (Ref S : Type) (host : Execution.Host Ref S), e.program.main.KeptBy host u) ∧
      List.Forall₂ (fun (c : ClassDecl) fs => List.Forall₂ (fun (m : Method) (f : Function) => f.cls = c.name.val ∧
          f.name = m.name.val ∧ ∀ (Ref S : Type) (host : Execution.Host Ref S), m.KeptBy host u c.name.val f)
        c.methods fs) e.program.classes functions := by
  obtain ⟨hsound, -⟩ := elaborate_sound h
  obtain ⟨u, hu⟩ := lowerProgram_total hsound
  obtain ⟨_, functions, -, -, -, hfunctions, hflat, hmain⟩ := lowerProgram_sound hu
  have hknows := knows_of_lowerProgram hsound.declarations hu
  refine ⟨u, functions, hu, hflat, fun _ _ _ => MainClass.keptBy hknows hsound.marked.main hmain, ?_⟩
  have hmarked : ∀ c ∈ e.program.classes, c ∈ e.program.classes ∧ ∀ m ∈ c.methods, m.MarkedIn e.classes c.name.val :=
    fun c hc => ⟨hc, hsound.marked.methods c hc⟩
  refine ((List.forall₂_and_left _ _).2 ⟨hmarked, hfunctions⟩).imp fun c fs ⟨⟨hc, hms⟩, hfs⟩ => ?_
  refine ((List.forall₂_and_left _ _).2 ⟨hms, hfs⟩).imp fun m f ⟨hm, hf⟩ => ?_
  exact ⟨hf.cls, hf.name, fun _ _ _ => hm.keptBy hknows hc hf⟩

theorem functions_keep_meaning_on_sample : ∃ e, (Sample.program.elaborate ⟨true, true⟩).result = .ok e ∧
    ∃ u functions, (lowerProgram e.program).result = .ok u ∧ u.functions = functions.flatten ∧
      (∀ (Ref S : Type) (host : Execution.Host Ref S), e.program.main.KeptBy host u) ∧
      List.Forall₂ (fun (c : ClassDecl) fs => List.Forall₂ (fun (m : Method) (f : Function) => f.cls = c.name.val ∧
          f.name = m.name.val ∧ ∀ (Ref S : Type) (host : Execution.Host Ref S), m.KeptBy host u c.name.val f)
        c.methods fs) e.program.classes functions :=
  ⟨_, rfl, functions_keep_meaning Sample.program ⟨true, true⟩ _ rfl⟩

end MiniJava
