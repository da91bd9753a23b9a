import MiniJava.Proofs.Execution.Careful
import MiniJava.Proofs.Execution.Programs
import MiniJava.Proofs.Native.Programs
/-!
# Listings and C functions side by side

The two kinds of code differ in `&&` and in nothing else.  A listing has the runs in which both operands are evaluated, a
C function those in which the right operand is passed over where the left one is 0 (`Method.DoneAlike`).  With a host that
answers booleans with 0 and 1, a run is one of both as long as the operands that are passed over would ask the host for
nothing, and where right operands are silent the two have the same runs.
-/
namespace MiniJava

open CUnit Execution
open Assembly (MethodListing ClassListing interfacesOf Lists Knows)
open MiniJava.Expr (EachRight)

variable {Ref S : Type}

/-- The variables of the method hold values of the types that they are declared for. -/
def Method.Holds (m : Method) (env : Env Ref) : Prop := ∀ d ∈ m.formals ++ m.locals, (env d.name.val).HasType d.ty.val

theorem Method.Holds.suits {m : Method} {env : Env Ref} (h : m.Holds env) : m.Suits env :=
  fun d hd => (h d hd).isReference

theorem Method.Holds.scope {m : Method} {env : Env Ref} (h : m.Holds env) (t : ClassTable) (c : Name) :
    env.Holds (m.scope t c) := by
  intro x ty hx
  have hmem : (x, ty) ∈ m.variables := by
    rw [Method.scope, Table.get?_ofList] at hx
    exact List.mem_reverse.1 (mem_of_valueOf?_eq_some hx)
  obtain ⟨d, hd, heq⟩ := List.mem_map.1 hmem
  cases heq
  exact h d hd

/-- **The code of a listing comes to a return**, from the given slots and an empty stack. -/
def Assembly.MethodListing.Returns (l : MethodListing) (host : Execution.Host Ref S) (slots : List (Value Ref)) (s : S)
    (t : Trace Ref) (v : Value Ref) (slots' : List (Value Ref)) (s' : S) : Prop :=
  ∃ fin, Reaches host l.code ⟨l.code, [], slots, s⟩ t fin ∧ fin.Returns v ∧ fin.slots = slots' ∧ fin.state = s'

/-- **What a listing and a function of C make of a method of the class `c`.**  Both work for the same object.  The slots
hold what the arguments and the frame of the function hold. -/
structure Method.DoneAlike (host : Execution.Host Ref S) (classes : ClassTable) (u : CUnit) (c : Name) (m : Method)
    (l : MethodListing) (f : Function) : Prop where
  /-- The listing does what the method does where both operands of `&&` are evaluated. -/
  eager : ∀ o (cells : Cells Ref) s t v slots s', m.Holds (cells.env m.formalNames) →
    (l.Returns host (m.slotValues o (cells.env m.formalNames)) s t v slots s' ↔
      ∃ env', ExecMethod host ⟨c, some o⟩ m (cells.env m.formalNames) s t v env' s' ∧ slots = m.slotValues o env')
  /-- The function does what the method does where operands of `&&` are passed over. -/
  lazy : ∀ o (cells : Cells Ref) s t v env' s',
    (∃ cells', CReturns host u f o cells s t v cells' s' ∧ cells'.env m.formalNames = env') ↔
      LazyMethod host ⟨c, some o⟩ anything m (cells.env m.formalNames) s t v env' s'
  /-- A run that passes over nothing but what would ask for nothing is one of both. -/
  careful : host.Truthful classes → ∀ o (cells : Cells Ref) s t v env' s', m.Holds (cells.env m.formalNames) →
    LazyMethod host ⟨c, some o⟩ (Idle host ⟨c, some o⟩) m (cells.env m.formalNames) s t v env' s' →
      l.Returns host (m.slotValues o (cells.env m.formalNames)) s t v (m.slotValues o env') s' ∧
        ∃ cells', CReturns host u f o cells s t v cells' s' ∧ cells'.env m.formalNames = env'
  /-- Where right operands are silent, the listing and the function have the same runs. -/
  silent : host.Truthful classes → EachRight Expr.Silent (Stmt.expressionsAll m.body ++ m.result.parts) →
    ∀ o (cells : Cells Ref) s t v slots s', m.Holds (cells.env m.formalNames) →
    (l.Returns host (m.slotValues o (cells.env m.formalNames)) s t v slots s' ↔
      ∃ cells', CReturns host u f o cells s t v cells' s' ∧ slots = m.slotValues o (cells'.env m.formalNames))

/-- What the main function of a unit does. -/
def CUnit.DoesMain (u : CUnit) (host : Execution.Host Ref S) (c : Name) (cells : Cells Ref) (s : S) (t : Trace Ref)
    (s' : S) : Prop :=
  ∃ cells' τ, CExec host ⟨c, none⟩ (mainSite u) u.main.body cells .unset s t cells' τ s'

/-- **What code and the main function make of a main class**, which has no object and no variables. -/
structure MainClass.DoneAlike (host : Execution.Host Ref S) (classes : ClassTable) (u : CUnit) (main : MainClass)
    (code : List Assembly.Instr) : Prop where
  eager : ∀ env slots s t fin, (Reaches host code ⟨code, [], slots, s⟩ t fin ∧ fin.Halted) ↔
    ∃ env' s', Exec host ⟨main.name.val, none⟩ main.body env s t env' s' ∧ fin = ⟨[], [], slots, s'⟩
  lazy : ∀ (cells : Cells Ref) s t s', u.DoesMain host main.name.val cells s t s' ↔
    ∃ env', LazyExec host ⟨main.name.val, none⟩ anything main.body (cells.env []) s t env' s'
  careful : host.Truthful classes → ∀ (cells : Cells Ref) s t env' s',
    LazyExec host ⟨main.name.val, none⟩ (Idle host ⟨main.name.val, none⟩) main.body (cells.env []) s t env' s' →
      (∀ slots, Reaches host code ⟨code, [], slots, s⟩ t ⟨[], [], slots, s'⟩) ∧ u.DoesMain host main.name.val cells s t s'
  silent : host.Truthful classes → EachRight Expr.Silent main.body.expressions → ∀ (cells : Cells Ref) slots s t fin,
    (Reaches host code ⟨code, [], slots, s⟩ t fin ∧ fin.Halted) ↔
      ∃ s', u.DoesMain host main.name.val cells s t s' ∧ fin = ⟨[], [], slots, s'⟩

namespace Execution

variable {host : Execution.Host Ref S} {p : Program} {t : ClassTable} {u : CUnit} {interfaces : Table Name Assembly.Interface}

theorem doneAlike_method (hi : Knows interfaces t) (hu : u.Knows p t) {c : ClassDecl} (hc : c ∈ p.classes) {m : Method}
    (hm : m.MarkedIn t c.name.val) {l : MethodListing} (hl : Lists interfaces c.name.val m l) {f : Function}
    (hf : Defines c.name.val m f) : m.DoneAlike host t u c.name.val l f := by
  have hrealized : m.RealizedBy host ⟨interfaces, c.name.val, Assembly.slotsOf m⟩ l := realizedBy_method hi hm hl
  have heager := hrealized.returns_iff
  have hlazy : ∀ o (cells : Cells Ref) s tr v env' s',
      (∃ cells', CReturns host u f o cells s tr v cells' s' ∧ cells'.env m.formalNames = env') ↔
        LazyMethod host ⟨c.name.val, some o⟩ anything m (cells.env m.formalNames) s tr v env' s' :=
    fun _ _ _ _ _ _ _ => cReturns_iff hu hc hm hf
  have htyped : host.Truthful t → ∀ o, Typed host ⟨c.name.val, some o⟩ (m.scope t c.name.val) :=
    fun hhost o => ⟨hhost, serves_activation o⟩
  refine ⟨fun o cells s tr v slots s' henv => heager o _ s tr v slots s' henv.suits, hlazy, ?_, ?_⟩
  · intro hhost o cells s tr v env' s' henv h
    have htyped := htyped hhost o
    have henv' := henv.scope t c.name.val
    refine ⟨(heager o _ s tr v _ s' henv.suits).2 ⟨env', h.eager htyped hm henv', rfl⟩, ?_⟩
    exact (hlazy o cells s tr v env' s').2 (h.mono htyped hm henv' fun _ _ _ _ _ _ _ _ _ => trivial)
  · intro hhost hsilent o cells s tr v slots s' henv
    have hsame : ∀ env', ExecMethod host ⟨c.name.val, some o⟩ m (cells.env m.formalNames) s tr v env' s' ↔
        LazyMethod host ⟨c.name.val, some o⟩ anything m (cells.env m.formalNames) s tr v env' s' :=
      fun _ => execMethod_iff_of_silent (htyped hhost o) hm (henv.scope t c.name.val) hsilent
    refine (heager o _ s tr v slots s' henv.suits).trans ?_
    constructor
    · rintro ⟨env', h, rfl⟩
      obtain ⟨cells', hreturns, rfl⟩ := (hlazy o cells s tr v env' s').2 ((hsame env').1 h)
      exact ⟨cells', hreturns, rfl⟩
    · rintro ⟨cells', hreturns, rfl⟩
      exact ⟨_, (hsame _).2 ((hlazy o cells s tr v _ s').1 ⟨cells', hreturns, rfl⟩), rfl⟩

theorem doneAlike_main (hi : Knows interfaces t) (hu : u.Knows p t) {main : MainClass}
    (hm : t.mainScope.MarkedStmt main.body) {n n' : Nat} {code : List Assembly.Instr}
    (hl : Assembly.Frame.lowerStmt ⟨interfaces, main.name.val, []⟩ main.body n = .ok (code, n'))
    (hf : lowerStmt [] main.body [] = .ok (u.main.body, u.main.temps)) : main.DoneAlike host t u code := by
  have hrealized : main.RealizedBy host ⟨interfaces, main.name.val, []⟩ code := realizedBy_main hi hm hl
  have heager := hrealized.runs
  have hlazy : ∀ (cells : Cells Ref) s tr s', u.DoesMain host main.name.val cells s tr s' ↔
      ∃ env', LazyExec host ⟨main.name.val, none⟩ anything main.body (cells.env []) s tr env' s' :=
    fun _ _ _ _ => cExec_main_iff hu hm hf
  have htyped : host.Truthful t → Typed host ⟨main.name.val, none⟩ t.mainScope :=
    fun hhost => ⟨hhost, serves_activation_main⟩
  have henv : ∀ env : Env Ref, env.Holds t.mainScope := fun _ _ _ h => by cases h
  refine ⟨heager, hlazy, ?_, ?_⟩
  · intro hhost cells s tr env' s' h
    have hexec := h.eager (htyped hhost) hm (henv _)
    exact ⟨fun slots => ((heager _ slots s tr _).2 ⟨env', s', hexec, rfl⟩).1,
      (hlazy cells s tr s').2 ⟨env', h.anything (htyped hhost) (henv _) hm⟩⟩
  · intro hhost hsilent cells slots s tr fin
    have hsame : ∀ env' s', Exec host ⟨main.name.val, none⟩ main.body (cells.env []) s tr env' s' ↔
        LazyExec host ⟨main.name.val, none⟩ anything main.body (cells.env []) s tr env' s' :=
      fun _ _ => exec_iff_of_silent (htyped hhost) (henv (cells.env [])) hm hsilent
    refine (heager (cells.env []) slots s tr fin).trans ?_
    constructor
    · rintro ⟨env', s', h, rfl⟩
      exact ⟨s', (hlazy cells s tr s').2 ⟨env', (hsame env' s').1 h⟩, rfl⟩
    · rintro ⟨s', h, rfl⟩
      obtain ⟨env', h⟩ := (hlazy cells s tr s').1 h
      exact ⟨env', s', (hsame env' s').2 h, rfl⟩

/-- **Each method of a sound program has a listing and a function that make the same of it**, and so has the main class. -/
theorem exists_doneAlike {e : Elaborated} (h : e.Sound) :
    ∃ (code : List Assembly.Instr) (classes : List ClassListing) (u : CUnit),
      (Assembly.lowerProgram e.program).result = .ok (.main e.program.main.name.val code :: classes.map .cls) ∧
      (CUnit.lowerProgram e.program).result = .ok u ∧
      (∀ (Ref S : Type) (host : Execution.Host Ref S), e.program.main.DoneAlike host e.classes u code) ∧
      ∀ c ∈ e.program.classes, ∀ m ∈ c.methods, ∃ k ∈ classes, ∃ l ∈ k.methods, ∃ f ∈ u.functions,
        k.name = c.name.val ∧ l.name = m.name.val ∧ f.cls = c.name.val ∧ f.name = m.name.val ∧
          ∀ (Ref S : Type) (host : Execution.Host Ref S), m.DoneAlike host e.classes u c.name.val l f := by
  obtain ⟨ls, hls⟩ := Assembly.lowerProgram_total h
  obtain ⟨u, hu⟩ := CUnit.lowerProgram_total h
  obtain ⟨interfaces, code, _, _, classes, hi, hmain, hclasses, rfl⟩ := Assembly.lowerProgram_sound hls
  obtain ⟨_, hi', hknows⟩ := h.declarations.interfacesOf_eq_ok
  cases hi.symm.trans hi'
  have hunit := knows_of_lowerProgram h.declarations hu
  obtain ⟨_, functions, -, -, -, hfunctions, hflat, hmain'⟩ := CUnit.lowerProgram_sound hu
  refine ⟨code, classes, u, hls, hu, fun _ _ _ => doneAlike_main hknows hunit h.marked.main hmain hmain', ?_⟩
  intro c hc m hm
  obtain ⟨k, hk, hkname, hlists⟩ := forall₂_mem_left hclasses c hc
  obtain ⟨l, hl, hlist⟩ := forall₂_mem_left hlists m hm
  obtain ⟨fs, hfs, hdefines⟩ := forall₂_mem_left hfunctions c hc
  obtain ⟨f, hf, hdefine⟩ := forall₂_mem_left hdefines m hm
  refine ⟨k, hk, l, hl, f, hflat ▸ List.mem_flatten.2 ⟨fs, hfs, hf⟩, hkname, hlist.name, hdefine.cls, hdefine.name, ?_⟩
  exact fun _ _ _ => doneAlike_method hknows hunit hc (h.marked.methods c hc m hm) hlist hdefine

end Execution

/-- **Listings and C functions differ in `&&` and in nothing else.**  Whatever the program, once it has been elaborated its
main class and each of its methods have a listing and a function, and whatever the host the one does exactly what they do
where both operands of `&&` are evaluated, the other exactly what they do where the right operand is passed over when the
left one is 0.  With a host that answers booleans with 0 and 1, a run that passes over nothing but what would ask the host
for nothing is one of both, with the same requests in the same order, the same result and the same values of the
variables; and where no right operand of an `&&` asks for anything, the listing and the function have the same runs. -/
theorem back_ends_agree_but_for_conjunctions (p : Program) (dump : Dump) (e : Elaborated)
    (h : (p.elaborate dump).result = .ok e) :
    ∃ (code : List Assembly.Instr) (classes : List ClassListing) (u : CUnit),
      (Assembly.lowerProgram e.program).result = .ok (.main e.program.main.name.val code :: classes.map .cls) ∧
      (CUnit.lowerProgram e.program).result = .ok u ∧
      (∀ (Ref S : Type) (host : Execution.Host Ref S), e.program.main.DoneAlike host e.classes u code) ∧
      ∀ c ∈ e.program.classes, ∀ m ∈ c.methods, ∃ k ∈ classes, ∃ l ∈ k.methods, ∃ f ∈ u.functions,
        k.name = c.name.val ∧ l.name = m.name.val ∧ f.cls = c.name.val ∧ f.name = m.name.val ∧
          ∀ (Ref S : Type) (host : Execution.Host Ref S), m.DoneAlike host e.classes u c.name.val l f := by
  obtain ⟨hsound, -⟩ := elaborate_sound h
  exact exists_doneAlike hsound

theorem Sample.host_truthful (t : ClassTable) : Sample.host.Truthful t where
  fields := by
    rintro c f o s v s' - h
    cases h
    exact ⟨false, rfl⟩
  methods := by
    rintro c m sig o vs s v s' - - h
    cases h
    exact ⟨false, rfl⟩

theorem back_ends_agree_but_for_conjunctions_on_sample : ∃ e, (Sample.program.elaborate ⟨true, true⟩).result = .ok e ∧
    Sample.host.Truthful e.classes ∧ ∃ (code : List Assembly.Instr) (classes : List ClassListing) (u : CUnit),
      (Assembly.lowerProgram e.program).result = .ok (.main e.program.main.name.val code :: classes.map .cls) ∧
      (CUnit.lowerProgram e.program).result = .ok u ∧
      (∀ (Ref S : Type) (host : Execution.Host Ref S), e.program.main.DoneAlike host e.classes u code) ∧
      ∀ c ∈ e.program.classes, ∀ m ∈ c.methods, ∃ k ∈ classes, ∃ l ∈ k.methods, ∃ f ∈ u.functions,
        k.name = c.name.val ∧ l.name = m.name.val ∧ f.cls = c.name.val ∧ f.name = m.name.val ∧
          ∀ (Ref S : Type) (host : Execution.Host Ref S), m.DoneAlike host e.classes u c.name.val l f :=
  ⟨_, rfl, Sample.host_truthful _, back_ends_agree_but_for_conjunctions Sample.program ⟨true, true⟩ _ rfl⟩

/-! ## Where they differ -/

namespace Sample

/-- A main class that calls a method on the right of `&&`, and a method that reads a boolean on its left. -/
def conjunctions : Program :=
  ⟨⟨name "Main", name "args", .ite
      (.binary mark (.bool mark false) .and (.call mark (.newObject mark (name "A")) (name "m") [] none))
      (.print (.literal mark 1)) (.print (.literal mark 2))⟩,
    [⟨name "A", none, [declare "b" .boolean],
      [⟨name "m", ⟨.boolean, mark.span⟩, [], [], [], .binary mark (read "b") .and (.bool mark true)⟩]⟩]⟩

/-- What the main class and the method are once they have been marked. -/
theorem conjunctions_elaborate : ∃ e, (conjunctions.elaborate ⟨false, false⟩).result = .ok e ∧
    (∃ m₁ m₂ m₃ m₄ m₅ m₆, e.program.main.body = .ite
      (.binary m₁ (.bool m₂ false) .and (.call m₃ (.newObject m₄ (name "A")) (name "m") [] (some ⟨"A", [], [], .boolean⟩)))
      (.print (.literal m₅ 1)) (.print (.literal m₆ 2))) ∧
    ∃ c ∈ e.program.classes, ∃ m ∈ c.methods, c.name.val = "A" ∧ m.formals = [] ∧ m.locals = [] ∧ m.body = [] ∧
      ∃ m₁ m₂ m₃, m.result = .binary m₁ (.read m₂ ⟨name "b", some .boolean, some .object⟩) .and (.bool m₃ true) :=
  ⟨_, rfl, ⟨_, _, _, _, _, _, rfl⟩, _, List.mem_cons_self, _, List.mem_cons_self, rfl, rfl, rfl, rfl, _, _, _, rfl⟩

/-- A host that answers with 2, booleans too. -/
def twos : Execution.Host Unit Unit where
  performs r _ out _ := out = r.answers.map fun reference => if reference then .ref () else .int 2
  kinds := by
    rintro r _ _ _ rfl
    exact Execution.map_isReference_answers () 2 r.answers

variable {host : Execution.Host Ref S} {act : Activation Ref} {env : Env Ref} {s s' : S} {t : Trace Ref} {v : Value Ref}

/-- The right operand makes its object whatever the left one is. -/
theorem asks_first {m₁ m₂ m₃ m₄ : Mark} {b : Bool} {op : Op} {c f : Located Name} {es : List Expr} {r : Resolution}
    (h : Eval host act env (.binary m₁ (.bool m₂ b) op (.call m₃ (.newObject m₄ c) f es (some r))) s t v s') :
    ∃ w rest, t = ⟨.newObject c.val, [w]⟩ :: rest := by
  cases h with
  | binary hl hr =>
    cases hl
    cases hr with
    | call hr _ _ =>
      cases hr
      exact ⟨_, _, rfl⟩

/-- The conjunction of a field and 1 is the last bit of the field. -/
theorem last_bit {m₁ m₂ m₃ : Mark} {x : Variable} (hx : x.home = some .object)
    (h : Eval host act env (.binary m₁ (.read m₂ x) .and (.bool m₃ true)) s t v s') :
    ∃ r a, t = [⟨r, [.int a]⟩] ∧ v = .int (apply .and a 1) := by
  cases h with
  | binary hl hr =>
    cases hr
    cases hl with
    | read hl =>
      generalize hfield : Value.int _ = w at hl
      cases hl with
      | method hhome => cases hhome.symm.trans hx
      | object _ _ _ _ => exact ⟨_, _, by rw [hfield]; rfl, rfl⟩

variable {classes : ClassTable} {u : CUnit}

/-- The listing makes an object and calls a method before it comes to print, and the main function only prints. -/
theorem print_differs {main : MainClass} {code : List Assembly.Instr} (hdone : main.DoneAlike host classes u code)
    {m₁ m₂ m₃ m₄ m₅ m₆ : Mark} {c f : Located Name} {r : Resolution} {es : List Expr}
    (hbody : main.body = .ite (.binary m₁ (.bool m₂ false) .and (.call m₃ (.newObject m₄ c) f es (some r)))
      (.print (.literal m₅ 1)) (.print (.literal m₆ 2))) (hprint : host.performs (.print 2) s [] s') :
    (∀ cells, u.DoesMain host main.name.val cells s [⟨.print 2, []⟩] s') ∧
      ∀ slots fin, Reaches host code ⟨code, [], slots, s⟩ [⟨.print 2, []⟩] fin → ¬ fin.Halted := by
  constructor
  · intro cells
    refine (hdone.lazy cells s _ s').2 ⟨cells.env [], ?_⟩
    rw [hbody]
    show LazyExec _ _ _ _ _ _ ([] ++ ([] ++ [_])) _ _
    exact .iteFalse (.pass .bool trivial) (.print .literal hprint)
  · intro slots fin hreaches hhalted
    obtain ⟨env', s', h, -⟩ := (hdone.eager (fun _ => .int 0) slots s _ fin).1 ⟨hreaches, hhalted⟩
    rw [hbody] at h
    generalize htrace : [_] = trace at h
    cases h with
    | iteTrue h _ _ | iteFalse h _ =>
      obtain ⟨_, _, rfl⟩ := asks_first h
      cases htrace

/-- Of 2 and 1, which are both not 0, the bitwise conjunction is 0. -/
theorem value_differs {m : Method} {l : MethodListing} {f : Function} {o : Ref} (hdone : m.DoneAlike host classes u "A" l f)
    (hformals : m.formals = []) (hlocals : m.locals = []) (hnothing : m.body = []) {m₁ m₂ m₃ : Mark}
    (hresult : m.result =
      .binary m₁ (.read m₂ ⟨name "b", some .boolean, some .object⟩) .and (.bool m₃ true))
    (hfield : host.performs (.getField "A" "b" .int o) s [.int 2] s') (cells : Cells Ref) :
    (∃ cells', CReturns host u f o cells s [⟨.getField "A" "b" .int o, [.int 2]⟩] (.int 1) cells' s') ∧
      ∀ slots, ¬ l.Returns host [.ref o] s [⟨.getField "A" "b" .int o, [.int 2]⟩] (.int 1) slots s' := by
  constructor
  · have hread : Reads host ⟨"A", some o⟩ (cells.env m.formalNames) ⟨name "b", some .boolean, some .object⟩ s
        [⟨.getField "A" "b" Ty.boolean.storage o, [.int 2]⟩] (.int 2) s' := .object rfl rfl rfl hfield
    have hbody : LazyExecAll host ⟨"A", some o⟩ anything m.body (cells.env m.formalNames) s []
        (cells.env m.formalNames) s := by
      rw [hnothing]
      exact .nil
    have hvalue : LazyEval host ⟨"A", some o⟩ anything (cells.env m.formalNames) m.result s
        ([⟨.getField "A" "b" .int o, [.int 2]⟩] ++ []) (.int 1) s' := by
      rw [hresult]
      exact .both (.read hread) (by decide) .bool
    obtain ⟨cells', h, -⟩ := (hdone.lazy o cells s _ (.int 1) _ s').2 (.intro hbody hvalue)
    exact ⟨cells', h⟩
  · intro slots hreturns
    have hslots : m.slotValues o (cells.env m.formalNames) = [.ref o] := by
      rw [Method.slotValues, hformals, hlocals]
      rfl
    have hholds : m.Holds (cells.env m.formalNames) := by
      rw [Method.Holds, hformals, hlocals]
      exact fun _ h => (List.not_mem_nil h).elim
    rw [← hslots] at hreturns
    obtain ⟨env', h, -⟩ := (hdone.eager o cells s _ (.int 1) slots s' hholds).1 hreturns
    generalize htrace : [_] = trace at h
    obtain ⟨hb, hr⟩ := h
    rw [hnothing] at hb
    rw [hresult] at hr
    cases hb
    obtain ⟨_, _, rfl, hvalue⟩ := last_bit rfl hr
    cases htrace
    cases hvalue

end Sample

/-- Where a call stands on the right of a left operand of 0, the listing calls and the main function does not.  With a host
that answers 2 for a boolean the two make different values of `b && true`. -/
theorem back_ends_differ_in_conjunctions :
    ∃ (e : Elaborated) (code : List Assembly.Instr) (classes : List ClassListing) (u : CUnit),
      (Sample.conjunctions.elaborate ⟨false, false⟩).result = .ok e ∧
      (Assembly.lowerProgram e.program).result = .ok (.main e.program.main.name.val code :: classes.map .cls) ∧
      (CUnit.lowerProgram e.program).result = .ok u ∧
      ((∀ cells, u.DoesMain Sample.host e.program.main.name.val cells () [⟨.print 2, []⟩] ()) ∧
        ∀ slots fin, Reaches Sample.host code ⟨code, [], slots, ()⟩ [⟨.print 2, []⟩] fin → ¬ fin.Halted) ∧
      ∃ k ∈ classes, ∃ l ∈ k.methods, ∃ f ∈ u.functions, ∀ cells,
        (∃ cells', CReturns Sample.twos u f () cells () [⟨.getField "A" "b" .int (), [.int 2]⟩] (.int 1) cells' ()) ∧
        ∀ slots, ¬ l.Returns Sample.twos [.ref ()] () [⟨.getField "A" "b" .int (), [.int 2]⟩] (.int 1) slots () := by
  obtain ⟨e, he, ⟨_, _, _, _, _, _, hbody⟩, c, hc, m, hm, hname, hformals, hlocals, hnothing, _, _, _, hresult⟩ :=
    Sample.conjunctions_elaborate
  obtain ⟨hsound, -⟩ := elaborate_sound he
  obtain ⟨code, classes, u, hls, hu, hmain, hmethods⟩ := exists_doneAlike hsound
  obtain ⟨k, hk, l, hl, f, hf, -, -, -, -, hdone⟩ := hmethods c hc m hm
  rw [hname] at hdone
  exact ⟨e, code, classes, u, he, hls, hu, Sample.print_differs (hmain Unit Unit Sample.host) hbody rfl, k, hk, l, hl, f, hf,
    Sample.value_differs (hdone Unit Unit Sample.twos) hformals hlocals hnothing hresult rfl⟩

end MiniJava
