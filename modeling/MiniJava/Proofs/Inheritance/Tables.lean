import MiniJava.Proofs.CUnit.Scopes
import MiniJava.Proofs.Native.Typing
/-!
# Positions in virtual tables

A virtual table lists the methods of the parent's table first, in their order, and then those that are new in the class, in
the order of their declarations (`Program.Declarations.methods_of_parent`).  So the table of an ancestor is where the table
of each descendant begins, and a position that code finds in the one is that of the same method in all the others.

Code finds positions by the names in its calls, in the table of the class that the call's temporary is declared with.  C
accepts the code of an elaborated program, so that every one of these names is in its table (`table_positions_stable`).
-/
namespace MiniJava

open CUnit

/-! ## The methods of a table -/

namespace CUnit

/-- The names of the methods in a table, in the order of the entries. -/
def Vtable.methods (v : Vtable) : List Name := v.slots.map (·.method)

/-- The methods of the table that the class takes over from its parent. -/
def inheritedMethods (u : CUnit) (c : ClassDecl) : List Name := (c.parent.bind fun a => u.vtable? a.val).elim [] Vtable.methods

/-- **The table `v` of a class begins as the table `vs` does**, and neither repeats a name.  The entry at each position of
`vs` and the one in `v` are those of one method. -/
structure Vtable.Continues (vs v : Vtable) : Prop where
  distinct : vs.methods.Nodup ∧ v.methods.Nodup
  begins : vs.methods <+: v.methods
  same : ∀ (i : Nat) (slot : Slot), vs.slots[i]? = some slot →
    ∃ slot' : Slot, v.slots[i]? = some slot' ∧ slot'.method = slot.method

theorem Vtable.continues_of_begins {vs v : Vtable} (hv : v.methods.Nodup) (h : vs.methods <+: v.methods) :
    vs.Continues v where
  distinct := ⟨hv.sublist h.sublist, hv⟩
  begins := h
  same := fun i slot hslot => by
    have hmethod : vs.methods[i]? = some slot.method := by rw [methods, List.getElem?_map, hslot, Option.map_some]
    have hmethod' : v.methods[i]? = some slot.method := by
      obtain ⟨rest, hrest⟩ := h
      rw [← hrest, List.getElem?_append_left (List.getElem?_eq_some_iff.1 hmethod).1, hmethod]
    rw [methods, List.getElem?_map, Option.map_eq_some_iff] at hmethod'
    exact hmethod'

/-- A method of a table stands at its position, there and in every table that begins so. -/
theorem Vtable.Continues.at_position {vs v : Vtable} (h : vs.Continues v) {m : Name} (hm : m ∈ vs.methods) :
    ∃ slot, v.slots[vs.position m]? = some slot ∧ slot.method = m := by
  have hlt : vs.methods.idxOf m < vs.slots.length := by
    have hlt := List.idxOf_lt_length_of_mem hm
    rwa [methods, List.length_map] at hlt
  have hmethod : (vs.slots[vs.methods.idxOf m]).method = m := by
    have hget := List.getElem_idxOf (List.idxOf_lt_length_of_mem hm)
    simpa only [methods, List.getElem_map] using hget
  obtain ⟨slot, hslot, hname⟩ := h.same _ _ (List.getElem?_eq_getElem hlt)
  exact ⟨slot, hslot, hname.trans hmethod⟩

end CUnit

namespace Program.Declarations

variable {p : Program} {t : ClassTable} {line line' : List ClassDecl}

/-- A class at the end of a line adds the methods that the line does not have yet. -/
theorem keys_slotsOf_append (h : p.Declarations t) {c : ClassDecl} (hc : c ∈ p.classes) (line : List ClassDecl) :
    (slotsOf (line ++ [c])).keys =
      (slotsOf line).keys ++ (c.methods.map (·.name.val)).filter (· ∉ (slotsOf line).keys) := by
  have hnames : (c.methods.map fun m => (m.name.val, slotOf c m)).map Prod.fst = c.methods.map (·.name.val) := by
    rw [List.map_map]
    rfl
  rw [CUnit.slotsOf, List.flatMap_append, List.flatMap_singleton, Table.keys_ofList_append_of_nodup, hnames]
  · rfl
  · rw [hnames]
    exact h.methodNames_distinct hc

/-- **The methods of a table are those of the parent's and then the new ones**, in the order of their declarations. -/
theorem methods_of_parent (h : p.Declarations t) {u : CUnit} (hu : (lowerProgram p).result = .ok u) {c : ClassDecl}
    (hc : c ∈ p.classes) {v : Vtable} (hv : u.vtable? c.name.val = some v) :
    v.methods = u.inheritedMethods c ++ (c.methods.map (·.name.val)).filter (· ∉ u.inheritedMethods c) := by
  obtain ⟨-, -, hshapes⟩ := h.shapes_of_lowerProgram hu
  obtain ⟨line, hl, -, hvtable⟩ := hshapes c hc
  cases hv.symm.trans hvtable
  rw [Vtable.methods, h.methods_shapeOf hl]
  cases hp : c.parent with
  | none =>
    rw [h.lineOf_of_root hc hp hl, CUnit.inheritedMethods, hp]
    exact h.keys_slotsOf_append hc []
  | some a =>
    obtain ⟨d, hd, hname⟩ := h.isType_iff.1 (h.parents c hc a hp)
    obtain ⟨line', hl', -, hvtable'⟩ := hshapes d hd
    rw [hname] at hl' hvtable'
    have hinherited : u.inheritedMethods c = (slotsOf line').keys := by
      rw [CUnit.inheritedMethods, hp, Option.bind_some, hvtable', Option.elim_some, Vtable.methods, h.methods_shapeOf hl']
    rw [hinherited, h.lineOf_of_parent hc hp hl hl']
    exact h.keys_slotsOf_append hc line'

/-- **The table of a class begins as the table of each of its ancestors does.** -/
theorem continues_of_mem_ancestors (h : p.Declarations t) {u : CUnit} (hu : (lowerProgram p).result = .ok u) {c : ClassDecl}
    (hc : c ∈ p.classes) {a : Name} (ha : a ∈ t.ancestors c.name.val) :
    ∃ vs v, u.vtable? a = some vs ∧ u.vtable? c.name.val = some v ∧ vs.Continues v := by
  obtain ⟨-, -, hshapes⟩ := h.shapes_of_lowerProgram hu
  obtain ⟨⟨b, hb, rfl⟩, -⟩ := h.ancestors_suffix hc ha
  obtain ⟨line, hl, -, hvtable⟩ := hshapes c hc
  obtain ⟨line', hl', -, hvtable'⟩ := hshapes b hb
  refine ⟨_, _, hvtable', hvtable, Vtable.continues_of_begins ?_ ?_⟩
  · rw [Vtable.methods, h.methods_shapeOf hl]
    exact (slotsOf line).nodup_keys
  · rw [Vtable.methods, Vtable.methods, h.methods_shapeOf hl, h.methods_shapeOf hl']
    exact keys_slotsOf_begin (h.lineOf_begins hc ha hl hl')

end Program.Declarations

/-! ## The calls of C code -/

namespace CUnit

namespace CExpr

mutual

/-- The calls in an expression: the temporary that holds the receiver, and the name of the method. -/
def calls : CExpr → List (Nat × Name)
  | int _ | self | read _ | newObject _ => []
  | binary l _ r => calls l ++ calls r
  | not e | length e | newArray e | cast _ e => calls e
  | index a i => calls a ++ calls i
  | call n r m es => calls r ++ callsAll es ++ [(n, m)]

def callsAll : List CExpr → List (Nat × Name)
  | [] => []
  | e :: es => calls e ++ callsAll es

end

end CExpr

namespace CStmt

mutual

def calls : CStmt → List (Nat × Name)
  | block body => callsAll body
  | ite c yes no => c.calls ++ calls yes ++ calls no
  | loop c body => c.calls ++ calls body
  | print e | assign _ e => e.calls
  | store _ i e => i.calls ++ e.calls

def callsAll : List CStmt → List (Nat × Name)
  | [] => []
  | s :: ss => calls s ++ callsAll ss

end

end CStmt

def Function.calls (f : Function) : List (Nat × Name) := CStmt.callsAll f.body ++ f.result.calls

/-- **A call finds its method** in the table of the class that its temporary is declared with. -/
def FindsMethod (u : CUnit) (temps : TempList) (call : Nat × Name) (c : Name) : Prop :=
  valueOf? call.1 temps = some (.object c) ∧ ∃ v, u.vtable? c = some v ∧ call.2 ∈ v.methods

theorem mem_methods_of_slot? {u : CUnit} {c m : Name} {slot : Slot} (h : u.slot? c m = some slot) :
    ∃ v, u.vtable? c = some v ∧ m ∈ v.methods := by
  obtain ⟨v, hv, hslot⟩ := Option.bind_eq_some_iff.1 h
  have hmethod : slot.method = m := by simpa using List.find?_some hslot
  exact ⟨v, hv, hmethod ▸ List.mem_map_of_mem (List.mem_of_find?_eq_some hslot)⟩

variable {t : ClassTable} {site : Site} {here : Option Name}

mutual

/-- **Every call in an expression that has a type finds its method.** -/
theorem CTyped.findsMethod {call : Nat × Name} : ∀ {e : CExpr} {s : Storage}, CTyped t site here e s → call ∈ e.calls →
    ∃ c, site.unit.FindsMethod site.temps call c
  | .int _, _, _, hm | .self, _, _, hm | .read _, _, _, hm | .newObject _, _, _, hm => absurd hm List.not_mem_nil
  | .binary _ _ _, _, .binary hl hr, hm | .index _ _, _, .index hl hr, hm =>
    (List.mem_append.1 hm).elim hl.findsMethod hr.findsMethod
  | .not _, _, .not he, hm | .length _, _, .length he, hm | .newArray _, _, .newArray he, hm
  | .cast _ _, _, .cast he _ _, hm => he.findsMethod hm
  | .call _ _ _ _, _, .call htemp hslot hr hes, hm => by
    rcases List.mem_append.1 hm with hm | hm
    · exact (List.mem_append.1 hm).elim hr.findsMethod (findsMethod_all hes)
    · cases List.mem_singleton.1 hm
      exact ⟨_, htemp, mem_methods_of_slot? hslot⟩

theorem findsMethod_all {call : Nat × Name} : ∀ {es : List CExpr} {ss : List Storage},
    List.Forall₂ (CTyped t site here) es ss → call ∈ CExpr.callsAll es → ∃ c, site.unit.FindsMethod site.temps call c
  | [], _, _, hm => absurd hm List.not_mem_nil
  | _ :: _, _, .cons he hes, hm => (List.mem_append.1 hm).elim he.findsMethod (findsMethod_all hes)

end

mutual

theorem CAccepts.findsMethod {call : Nat × Name} : ∀ {s : CStmt}, CAccepts t site here s → call ∈ s.calls →
    ∃ c, site.unit.FindsMethod site.temps call c
  | .block _, .block hb, hm => findsMethod_stmts hb hm
  | .ite _ _ _, .ite hc hy hn, hm => by
    rcases List.mem_append.1 hm with hm | hm
    · exact (List.mem_append.1 hm).elim hc.findsMethod hy.findsMethod
    · exact hn.findsMethod hm
  | .loop _ _, .loop hc hb, hm => (List.mem_append.1 hm).elim hc.findsMethod hb.findsMethod
  | .print _, .print he, hm | .assign _ _, .assign _ he, hm => he.findsMethod hm
  | .store _ _ _, .store _ hi he, hm => (List.mem_append.1 hm).elim hi.findsMethod he.findsMethod

theorem findsMethod_stmts {call : Nat × Name} : ∀ {ss : List CStmt}, (∀ s ∈ ss, CAccepts t site here s) →
    call ∈ CStmt.callsAll ss → ∃ c, site.unit.FindsMethod site.temps call c
  | [], _, hm => absurd hm List.not_mem_nil
  | _ :: _, hss, hm => by
    obtain ⟨hs, hss⟩ := List.forall_mem_cons.1 hss
    exact (List.mem_append.1 hm).elim hs.findsMethod (findsMethod_stmts hss)

end

theorem Function.WellTyped.findsMethod {u : CUnit} {f : Function} (h : f.WellTyped t u) :
    ∀ call ∈ f.calls, ∃ c, u.FindsMethod f.temps call c := fun _ hm =>
  (List.mem_append.1 hm).elim (findsMethod_stmts h.body) h.result.findsMethod

end CUnit

/-- **The call keeps its position**: the method stands in the table of the class that the call's temporary is declared with,
and where it stands there the table of every descendant has the entry of the same method. -/
def Program.KeepsPosition (p : Program) (t : ClassTable) (u : CUnit) (temps : TempList) (call : Nat × Name) : Prop :=
  ∃ s vs, valueOf? call.1 temps = some (.object s) ∧ u.vtable? s = some vs ∧ call.2 ∈ vs.methods ∧
    ∀ d ∈ p.classes, s ∈ t.ancestors d.name.val → ∃ v slot, u.vtable? d.name.val = some v ∧
      v.slots[vs.position call.2]? = some slot ∧ slot.method = call.2

theorem Program.Declarations.keepsPosition {p : Program} {t : ClassTable} (h : p.Declarations t) {u : CUnit}
    (hu : (lowerProgram p).result = .ok u) {temps : TempList} {call : Nat × Name}
    (hcall : ∃ c, u.FindsMethod temps call c) : p.KeepsPosition t u temps call := by
  obtain ⟨s, htemp, vs, hvs, hm⟩ := hcall
  refine ⟨s, vs, htemp, hvs, hm, fun d hd hs => ?_⟩
  obtain ⟨vs', v, hvs', hv, hcontinues⟩ := h.continues_of_mem_ancestors hu hd hs
  cases hvs.symm.trans hvs'
  obtain ⟨slot, hslot, hname⟩ := hcontinues.at_position hm
  exact ⟨v, slot, hv, hslot, hname⟩

/-- **Positions in virtual tables are stable along inheritance.**  Whatever the program, once it has been elaborated the
table of each class lists the methods of its parent's table and then the new ones in the order of their declarations; it
repeats no name, and it begins as the table of each ancestor does.  Every call of the C code, in a function or in the main
function, finds its method in the table of the class that its temporary is declared with, and at that position the table of
every descendant has the entry of that method. -/
theorem table_positions_stable (p : Program) (dump : Dump) (e : Elaborated) (h : (p.elaborate dump).result = .ok e) :
    ∃ u, (lowerProgram e.program).result = .ok u ∧
      (∀ d ∈ e.program.classes, ∃ v, u.vtable? d.name.val = some v ∧
        v.methods = u.inheritedMethods d ++ (d.methods.map (·.name.val)).filter (· ∉ u.inheritedMethods d) ∧
        ∀ s ∈ e.classes.ancestors d.name.val, ∃ vs, u.vtable? s = some vs ∧ vs.Continues v) ∧
      (∀ f ∈ u.functions, ∀ call ∈ f.calls, e.program.KeepsPosition e.classes u f.temps call) ∧
      ∀ call ∈ u.main.body.calls, e.program.KeepsPosition e.classes u u.main.temps call := by
  obtain ⟨hsound, -⟩ := elaborate_sound h
  have hdecl := hsound.declarations
  obtain ⟨u, hu⟩ := lowerProgram_total hsound
  obtain ⟨-, -, hshapes⟩ := hdecl.shapes_of_lowerProgram hu
  obtain ⟨_, _, -, -, -, -, -, hmain⟩ := lowerProgram_sound hu
  refine ⟨u, hu, fun d hd => ?_, fun f hf call hcall => ?_, fun call hcall => ?_⟩
  · obtain ⟨_, -, -, hv⟩ := hshapes d hd
    refine ⟨_, hv, hdecl.methods_of_parent hu hd hv, fun s hs => ?_⟩
    obtain ⟨vs, v, hvs, hv', hcontinues⟩ := hdecl.continues_of_mem_ancestors hu hd hs
    cases hv.symm.trans hv'
    exact ⟨vs, hvs, hcontinues⟩
  · obtain ⟨c, hc, m, hm, hdefine⟩ := (functions_of_lowerProgram hu).1 f hf
    have htyped := hdefine.wellTyped (hsound.marked.methods c hc m hm) hdecl hu hc
    exact hdecl.keepsPosition hu (htyped.findsMethod call hcall)
  · have hsite := declares_mainSite hdecl hu hmain
    have haccepted := (lowersStmt_of_lowerStmt hmain).accepted hsite hsound.marked.main List.prefix_rfl
    exact hdecl.keepsPosition hu (haccepted.findsMethod hcall)

/-! ## A line of three classes -/

namespace Sample

/-- A method that returns a number. -/
def constant (m : Name) (n : Nat) : Method := ⟨name m, ⟨.int, mark.span⟩, [], [], [], .literal mark n⟩

/-- A class `B` that declares one of the methods of `A` again after a new one, and a class `C` that does so with the other.
The main class calls the method of `C` that comes last in its table. -/
def extending : Program :=
  ⟨⟨name "Main", name "args", .print (.call mark (.newObject mark (name "C")) (name "j") [] none)⟩,
    [⟨name "A", none, [], [constant "m" 1, constant "n" 2]⟩,
      ⟨name "B", some (name "A"), [], [constant "k" 3, constant "m" 4]⟩,
      ⟨name "C", some (name "B"), [], [constant "j" 5, constant "n" 6]⟩]⟩

end Sample

theorem table_positions_stable_on_extending : ∃ e u vs v, (Sample.extending.elaborate ⟨false, false⟩).result = .ok e ∧
    (lowerProgram e.program).result = .ok u ∧ u.vtable? "A" = some vs ∧ u.vtable? "C" = some v ∧ vs.Continues v ∧
    vs.methods = ["m", "n"] ∧ v.methods = ["m", "n", "k", "j"] ∧ u.main.body.calls = [(0, "j")] ∧
    e.program.KeepsPosition e.classes u u.main.temps (0, "j") := by
  obtain ⟨u, hu, htables, -, hmain⟩ := table_positions_stable Sample.extending ⟨false, false⟩ _ rfl
  obtain ⟨v, hv, -, hancestors⟩ := htables _ (List.mem_of_getElem? (i := 2) rfl)
  obtain ⟨vs, hvs, hcontinues⟩ := hancestors "A" (by decide)
  have hkeeps := hmain (0, "j")
  cases hu
  cases hv
  cases hvs
  exact ⟨_, _, _, _, rfl, rfl, rfl, rfl, hcontinues, rfl, rfl, rfl, hkeeps (by decide)⟩

end MiniJava
