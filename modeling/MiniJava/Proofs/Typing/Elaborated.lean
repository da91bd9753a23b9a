import MiniJava.Compile
import MiniJava.Proofs.ClassTable.Declarations
/-!
# Elaborated programs

What the code generators may rely on (`Elaborated.Sound`): the table is the one that the program's own declarations make,
and every mark in the program is right.  Elaboration answers nothing else (`elaborate_sound`), since a program's marks
have no part in its class table (`classTable_unmark`).
-/
namespace MiniJava

/-! ## Marks have no part in the class table -/

theorem parentClause_unmark (p : Program) (c : Name) : p.unmark.parentClause c = p.parentClause c := by
  show ((p.classes.map ClassDecl.unmark).find? (·.name.val = c)).bind (·.parent) = _
  rw [List.find?_map, Option.bind_map]
  rfl

theorem registered_unmark (p : Program) : p.unmark.registered = p.registered := by
  simp only [Program.registered, Program.unmark, List.foldlM_map]
  rfl

theorem declareMembers_unmark (t : ClassTable) (c : ClassDecl) : t.declareMembers c.unmark = t.declareMembers c := by
  simp only [ClassTable.declareMembers, ClassDecl.unmark, List.foldlM_map]
  rfl

theorem classTable_unmark (p : Program) : p.unmark.classTable = p.classTable := by
  have hclause : p.unmark.parentClause = p.parentClause := funext (parentClause_unmark p)
  have hmembers : (fun t c => ClassTable.declareMembers t (ClassDecl.unmark c)) = ClassTable.declareMembers := by
    funext t c
    exact declareMembers_unmark t c
  rw [Program.classTable, registered_unmark, hclause]
  simp only [Program.unmark, List.foldlM_map, hmembers, List.length_map]
  rfl

/-! ## What elaboration answers -/

/-- **A program that stands as the code generators expect it**: with the class table of its own declarations, and with
each mark the one that the typing rules give. -/
structure Elaborated.Sound (e : Elaborated) : Prop where
  declarations : e.program.Declarations e.classes
  marked : e.classes.MarkedProgram e.program

theorem result_elaborate {p : Program} {dump : Dump} : (p.elaborate dump).result =
    p.classTable.result >>= fun t => (t.markProgram dump p).result >>= fun q => pure ⟨q, t⟩ := by
  rw [Program.elaborate, Logged.result_bind]
  congr
  funext t
  split <;> simp only [Logged.result_bind, Logged.result_note, Logged.result_pure] <;> rfl

theorem elaborate_sound {p : Program} {dump : Dump} {e : Elaborated} (h : (p.elaborate dump).result = .ok e) :
    e.Sound ∧ e.program.unmark = p.unmark := by
  simp only [result_elaborate, bind_eq_ok, pure_eq_ok] at h
  obtain ⟨t, ht, q, hq, rfl⟩ := h
  obtain ⟨-, hm, hu⟩ := ClassTable.markProgram_sound hq
  have htable : q.classTable.result = .ok t := by rw [← classTable_unmark, hu, classTable_unmark, ht]
  exact ⟨⟨Program.declarations_of_classTable htable, hm⟩, hu⟩

/-! ## The phases before -/

namespace Source

variable {s : Source} {dump : Dump}

theorem elaborated_eq_ok {e : Elaborated} : (s.elaborated dump).result = .ok e ↔
    ∃ p, s.program.result = .ok p ∧ (p.elaborate dump).result = .ok e := by
  simp only [elaborated, Logged.result_bind, Logged.result_mapError, bind_eq_ok, mapError_eq_ok]

theorem listings_eq_ok {ls : List Assembly.Listing} : (s.listings dump).result = .ok ls ↔
    ∃ e, (s.elaborated dump).result = .ok e ∧ (Assembly.lowerProgram e.program).result = .ok ls := by
  simp only [listings, Logged.result_bind, Logged.result_mapError, bind_eq_ok, mapError_eq_ok]

theorem cUnit_eq_ok {u : CUnit} : (s.cUnit dump).result = .ok u ↔
    ∃ e, (s.elaborated dump).result = .ok e ∧ (CUnit.lowerProgram e.program).result = .ok u := by
  simp only [cUnit, Logged.result_bind, Logged.result_mapError, bind_eq_ok, mapError_eq_ok]

end Source

end MiniJava
