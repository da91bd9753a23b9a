import MiniJava.Proofs.Typing.Checker
/-!
# Checked programs

From single bodies to whole programs: against every class table the checker accepts exactly the well-typed programs, and
what it answers is the same program with each mark the one that the rules give (`markProgram_ok_iff`).
-/
namespace MiniJava

/-! ## The variables of a method -/

theorem Locals.declare_eq_ok {t u : Locals} {d : Declaration} :
    t.declare d = .ok u ↔ d.name.val ∉ t.keys ∧ u.entries = t.entries ++ [(d.name.val, d.ty.val)] := by
  rw [← Table.putNew?_eq_some_iff, Locals.declare]
  cases t.putNew? d.name.val d.ty.val <;> simp

/-- **Declarations succeed as long as no name comes twice**, and leave the names in order. -/
theorem Locals.declareAll_eq_ok : ∀ {ds : List Declaration} {t u : Locals},
    ds.foldlM Locals.declare t = .ok u ↔
      (t.keys ++ ds.map (·.name.val)).Nodup ∧ u.entries = t.entries ++ ds.map fun d => (d.name.val, d.ty.val)
  | [], t, u => by
    rw [List.foldlM_nil, pure_eq_ok, List.map_nil, List.map_nil, List.append_nil, List.append_nil]
    exact ⟨fun h => ⟨t.nodup_keys, h ▸ rfl⟩, fun h => Table.ext h.2.symm⟩
  | d :: ds, t, u => by
    rw [List.foldlM_cons, bind_eq_ok]
    simp only [Locals.declare_eq_ok, Locals.declareAll_eq_ok]
    constructor
    · rintro ⟨v, ⟨-, hv⟩, hn, hu⟩
      have hk : v.keys = t.keys ++ [d.name.val] := by simp only [Table.keys, hv, List.map_append, List.map_singleton]
      rw [hk, List.append_assoc] at hn
      exact ⟨hn, by rw [hu, hv, List.append_assoc]; rfl⟩
    · rintro ⟨hn, hu⟩
      have hd : d.name.val ∉ t.keys := fun hm => List.disjoint_of_nodup_append hn hm List.mem_cons_self
      obtain ⟨v, hv⟩ : ∃ v, t.putNew? d.name.val d.ty.val = some v :=
        ⟨t.put _ _, Table.putNew?_eq_some_iff.2 ⟨hd, putEntry_eq_append hd⟩⟩
      obtain ⟨-, hv⟩ := Table.putNew?_eq_some_iff.1 hv
      have hk : v.keys = t.keys ++ [d.name.val] := by simp only [Table.keys, hv, List.map_append, List.map_singleton]
      exact ⟨v, ⟨hd, hv⟩, by rw [hk, List.append_assoc]; exact hn, by rw [hu, hv, List.append_assoc]; rfl⟩

namespace ClassTable

variable {t : ClassTable}

theorem checkDeclared_eq_ok {ty : Located Ty} {u : Unit} : t.checkDeclared ty = .ok u ↔ t.Declares ty.val := by
  rw [checkDeclared]
  split
  · rename_i c hty
    rw [hty]
    by_cases hc : t.isType c = true
    · rw [if_pos hc]
      exact ⟨fun _ => .object hc, fun _ => rfl⟩
    · rw [if_neg hc]
      exact ⟨fun h => (by cases h), fun h => by cases h; contradiction⟩
  · rename_i hne
    refine ⟨fun _ => ?_, fun _ => rfl⟩
    cases hty : ty.val with
    | int => exact .int
    | boolean => exact .boolean
    | intArray => exact .intArray
    | object c => exact absurd hty (hne c)

theorem localsOf_eq_ok {m : Method} {locals : Locals} : t.localsOf m = .ok locals ↔
    (∀ d ∈ m.locals, t.Declares d.ty.val) ∧ ((m.formals ++ m.locals).map (·.name.val)).Nodup ∧
      locals = Table.ofList m.variables := by
  have hkeys : m.variables.map Prod.fst = (m.formals ++ m.locals).map (·.name.val) := by
    rw [Method.variables, List.map_map]
    rfl
  simp only [localsOf, bind_eq_ok, forM_eq_ok, checkDeclared_eq_ok]
  rw [Locals.ofDeclarations, Locals.declareAll_eq_ok]
  constructor
  · rintro ⟨-, hd, hn, hl⟩
    refine ⟨hd, hn, Table.ext (hl.trans (Eq.symm (Table.entries_ofList ?_)))⟩
    rw [hkeys]
    exact hn
  · rintro ⟨hd, hn, rfl⟩
    exact ⟨(), hd, hn, Table.entries_ofList (hkeys ▸ hn)⟩

/-! ## Methods -/

theorem result_markMethod {dump : Dump} {c : Name} {m : Method} :
    (t.markMethod dump c m).result = t.localsOf m >>= fun locals => Scope.markBody ⟨t, some c, locals⟩ m := by
  rw [markMethod, Logged.result_bind, Logged.result_liftM]
  congr
  funext locals
  split <;> rfl

theorem markMethod_sound {dump : Dump} {c : Name} {m m' : Method} (h : (t.markMethod dump c m).result = .ok m') :
    m.WellTypedIn t c ∧ m'.MarkedIn t c ∧ m'.unmark = m.unmark := by
  simp only [result_markMethod, Scope.markBody, bind_eq_ok, localsOf_eq_ok, Typing.widening_eq_ok, pure_eq_ok] at h
  obtain ⟨locals, ⟨hd, hn, rfl⟩, body, hb, ⟨result, ty⟩, hr, -, hc, rfl⟩ := h
  obtain ⟨hb, hmb, hub⟩ := Scope.markStmts_sound m.body hb
  obtain ⟨hr, hmr, hur⟩ := Scope.markExpr_sound m.result hr
  exact ⟨⟨hd, hn, hb, ty, hr, hc⟩, ⟨hd, hn, hmb, ty, hmr, hc⟩, by simp only [Method.unmark, hub, hur]⟩

theorem markMethod_complete {dump : Dump} {c : Name} {m : Method} (h : m.WellTypedIn t c) :
    ∃ m', (t.markMethod dump c m).result = .ok m' := by
  obtain ⟨ty, hr, hc⟩ := h.result
  obtain ⟨body, hb⟩ := Scope.markStmts_complete m.body h.body
  obtain ⟨result, hr⟩ := Scope.markExpr_complete m.result hr
  refine ⟨{ m with body, result }, ?_⟩
  simp only [result_markMethod, Scope.markBody, bind_eq_ok, localsOf_eq_ok, Typing.widening_eq_ok, pure_eq_ok]
  exact ⟨_, ⟨h.declared, h.distinct, rfl⟩, body, hb, (result, ty), hr, (), hc, rfl⟩

/-! ## Programs -/

theorem result_markClass {dump : Dump} {c : ClassDecl} : (t.markClass dump c).result =
    (c.methods.mapM fun m => (t.markMethod dump c.name.val m).result) >>= fun methods => pure { c with methods } := by
  simp only [markClass, Logged.result_bind, Logged.result_mapM]
  rfl

theorem markClass_sound {dump : Dump} {c c' : ClassDecl} (h : (t.markClass dump c).result = .ok c') :
    (∀ m ∈ c.methods, m.WellTypedIn t c.name.val) ∧ (∀ m ∈ c'.methods, m.MarkedIn t c'.name.val) ∧
      c'.unmark = c.unmark := by
  rw [result_markClass, bind_eq_ok] at h
  obtain ⟨ms, hms, h⟩ := h
  cases pure_eq_ok.1 h
  have hms := mapM_eq_ok.1 hms
  refine ⟨fun m hm => ?_, fun m hm => ?_, ?_⟩
  · obtain ⟨m', -, h⟩ := forall₂_mem_left hms m hm
    exact (markMethod_sound h).1
  · obtain ⟨m', -, h⟩ := forall₂_mem_right hms m hm
    exact (markMethod_sound h).2.1
  · have hu : c.methods.map Method.unmark = ms.map Method.unmark :=
      map_eq_of_forall₂ _ _ hms fun m m' h => (markMethod_sound h).2.2.symm
    simp only [ClassDecl.unmark, hu]

theorem markClass_complete {dump : Dump} {c : ClassDecl} (h : ∀ m ∈ c.methods, m.WellTypedIn t c.name.val) :
    ∃ c', (t.markClass dump c).result = .ok c' := by
  obtain ⟨ms, hms⟩ := exists_mapM_eq_ok (f := fun m => (t.markMethod dump c.name.val m).result)
    fun m hm => markMethod_complete (h m hm)
  exact ⟨{ c with methods := ms }, by rw [result_markClass, hms]; rfl⟩

theorem result_markProgram {dump : Dump} {p : Program} : (t.markProgram dump p).result =
    t.mainScope.markStmt p.main.body >>= fun body =>
      (p.classes.mapM fun c => (t.markClass dump c).result) >>= fun classes => pure ⟨{ p.main with body }, classes⟩ := by
  simp only [markProgram, Logged.result_bind, Logged.result_mapM]
  rfl

theorem markProgram_sound {dump : Dump} {p q : Program} (h : (t.markProgram dump p).result = .ok q) :
    t.WellTyped p ∧ t.MarkedProgram q ∧ q.unmark = p.unmark := by
  simp only [result_markProgram, bind_eq_ok, mapM_eq_ok] at h
  obtain ⟨body, hb, cs, hcs, h⟩ := h
  cases pure_eq_ok.1 h
  obtain ⟨hb, hmb, hub⟩ := Scope.markStmt_sound p.main.body hb
  refine ⟨⟨hb, fun c hc => ?_⟩, ⟨hmb, fun c hc => ?_⟩, ?_⟩
  · obtain ⟨c', -, h⟩ := forall₂_mem_left hcs c hc
    exact (markClass_sound h).1
  · obtain ⟨c', -, h⟩ := forall₂_mem_right hcs c hc
    exact (markClass_sound h).2.1
  · have hu : p.classes.map ClassDecl.unmark = cs.map ClassDecl.unmark :=
      map_eq_of_forall₂ _ _ hcs fun c c' h => (markClass_sound h).2.2.symm
    simp only [Program.unmark, MainClass.unmark, hub, hu]

theorem markProgram_complete {dump : Dump} {p : Program} (h : t.WellTyped p) :
    ∃ q, (t.markProgram dump p).result = .ok q := by
  obtain ⟨body, hb⟩ := Scope.markStmt_complete p.main.body h.main
  obtain ⟨cs, hcs⟩ := exists_mapM_eq_ok (f := fun c => (t.markClass dump c).result)
    fun c hc => markClass_complete (h.methods c hc)
  exact ⟨⟨{ p.main with body }, cs⟩, by rw [result_markProgram, hb, hcs]; rfl⟩

theorem expressions_of_markedIn {c : Name} {m : Method} (h : m.MarkedIn t c) :
    ∀ e ∈ Stmt.expressionsAll m.body ++ m.result.parts, ∃ ty, (m.scope t c).Marked e ty := by
  obtain ⟨ty, hr, -⟩ := h.result
  exact List.forall_mem_append.2 ⟨Scope.MarkedStmt.expressionsAll h.body, hr.parts⟩

theorem MarkedProgram.rightlyMarked {p : Program} (h : t.MarkedProgram p) : t.RightlyMarked p where
  main := fun e he => by
    obtain ⟨ty, hm⟩ := h.main.expressions e he
    exact hm.rightlyMarked
  mainTargets := h.main.targets
  methods := fun c hc m hm e he => by
    obtain ⟨ty, hm⟩ := expressions_of_markedIn (h.methods c hc m hm) e he
    exact hm.rightlyMarked
  targets := fun c hc m hm => Scope.MarkedStmt.targetsAll (h.methods c hc m hm).body

end ClassTable

/-! ## A program to try the rules on

`Flags` inherits the field and the method of `Cell`, calls the method on its argument in a loop and hands itself over as
a `Cell`; the main class calls the inherited method on a `Flags`. -/

namespace Sample

def name (x : Name) : Located Name := ⟨x, ⟨.first, .first⟩⟩

def mark : Mark := ⟨⟨.first, .first⟩, none⟩

def use (x : Name) : Variable := .unmarked (name x)

def read (x : Name) : Expr := .read mark (use x)

def declare (x : Name) (ty : Ty) : Declaration := ⟨name x, ⟨ty, mark.span⟩⟩

def cell : ClassDecl :=
  ⟨name "Cell", none, [declare "held" .int], [
    ⟨name "put", ⟨.int, mark.span⟩, [declare "n" .int], [],
      [.assign (use "held") (.binary mark (read "held") .add (read "n"))], read "held"⟩]⟩

def flags : ClassDecl :=
  ⟨name "Flags", some (name "Cell"), [], [
    ⟨name "count", ⟨.int, mark.span⟩, [declare "c" (.object "Cell")], [declare "k" .int],
      [.loop (.binary mark (read "k") .less (read "held"))
        (.assign (use "k") (.call mark (read "c") (name "put") [read "k"] none))],
      .call mark (.self mark) (name "count") [.self mark] none⟩]⟩

def program : Program :=
  ⟨⟨name "Main", name "args",
    .print (.call mark (.newObject mark (name "Flags")) (name "put") [.literal mark 7] none)⟩, [cell, flags]⟩

def table : ClassTable := program.classTable.result.toOption.getD .empty

end Sample

namespace ClassTable

/-- **The checker accepts exactly the well-typed programs**, against every class table.  A program that it accepts comes
back as it was, but that every expression in it is marked with the one type that it has, every variable with what its
name stands for and every call with what it was resolved to. -/
theorem markProgram_succeeds_iff_wellTyped (t : ClassTable) (dump : Dump) (p : Program) :
    ((∃ q, (t.markProgram dump p).result = .ok q) ↔ t.WellTyped p) ∧
      ∀ q, (t.markProgram dump p).result = .ok q → q.unmark = p.unmark ∧ t.RightlyMarked q := by
  refine ⟨⟨?_, markProgram_complete⟩, fun q h => ?_⟩
  · rintro ⟨q, h⟩
    exact (markProgram_sound h).1
  · obtain ⟨-, hm, hu⟩ := markProgram_sound h
    exact ⟨hu, hm.rightlyMarked⟩

theorem markProgram_succeeds_on_sample : ∃ q, (Sample.table.markProgram ⟨false, false⟩ Sample.program).result = .ok q ∧
    Sample.table.WellTyped Sample.program ∧ q.unmark = Sample.program.unmark ∧ Sample.table.RightlyMarked q :=
  have h := markProgram_succeeds_iff_wellTyped Sample.table ⟨false, false⟩ Sample.program
  ⟨_, rfl, h.1.1 ⟨_, rfl⟩, h.2 _ rfl⟩

end ClassTable

end MiniJava
