import MiniJava.Proofs.Assembly.Invocations
import MiniJava.Proofs.CUnit.Shapes
/-!
# Three views of inheritance

The class table, the interfaces that stack-machine code is made with, and the layouts and virtual tables of C: of every
class, an inherited member is in all of them or in none, with the same types (`MembersAgree`).  Calls, which are resolved
in the class table, are therefore emitted with the types that they were resolved to (`views_of_inheritance_agree`).
-/
namespace MiniJava

open Assembly CUnit

/-- **Views that agree on the members of the class `c`.** -/
structure Program.MembersAgree (p : Program) (t : ClassTable) (c : Name) (interface : Interface) (layout : Layout)
    (vtable : Vtable) : Prop where
  /-- The interface has exactly the methods that the table finds, with their types as values are held. -/
  interface : ∀ m, interface.get? m = (t.resolveMethod c m).map Signature.storages
  /-- A method that the table finds has one slot, with the same types, which the nearest class that declares the method
  fills. -/
  slot : ∀ m sig, t.resolveMethod c m = some sig →
    ∃ a, p.NearestWith t c m a ∧ vtable.slots.filter (·.method = m) = [sig.slot a m]
  /-- No other name has a slot. -/
  noSlot : ∀ m, t.resolveMethod c m = none → vtable.slots.filter (·.method = m) = []
  /-- A field that the table finds is one field of the structure, and no other is there. -/
  field : ∀ f, layout.fields.filter (·.1 = f) = ((t.resolveField c f).map fun ty => (f, ty.storage)).toList

namespace Program.Declarations

variable {p : Program} {t : ClassTable} {c : Name} {line : List ClassDecl}

/-- A slot stands under the name of its method. -/
theorem method_of_mem_slotsOf (h : p.Declarations t) (hl : p.LineOf t c line) {e : Name × Slot}
    (he : e ∈ (slotsOf line).entries) : e.2.method = e.1 := by
  have hget := Table.get?_eq_some_iff.2 he
  rw [h.get?_slotsOf_eq hl, List.findSome?_eq_some_iff] at hget
  obtain ⟨_, d, _, -, hd, -⟩ := hget
  obtain ⟨sig, -, heq⟩ := Option.map_eq_some_iff.1 hd
  exact heq ▸ rfl

theorem filter_slotsOf (h : p.Declarations t) (hl : p.LineOf t c line) (m : Name) :
    (slotsOf line).values.filter (·.method = m) = ((slotsOf line).get? m).toList := by
  have hmethod : (slotsOf line).entries.filter (fun e => e.2.method = m) = (slotsOf line).entries.filter (·.1 = m) :=
    List.filter_congr fun e he => by rw [h.method_of_mem_slotsOf hl he]
  rw [Table.values, List.filter_map]
  simp only [Function.comp_def]
  rw [hmethod, filter_fst_eq (slotsOf line).nodup_keys, Table.get?]
  cases valueOf? m (slotsOf line).entries <;> rfl

theorem membersAgree (h : p.Declarations t) (hl : p.LineOf t c line) {interface : Interface}
    (hi : ∀ m, interface.get? m = (t.resolveMethod c m).map Signature.storages) :
    p.MembersAgree t c interface (shapeOf c line).1 (shapeOf c line).2 where
  interface := hi
  slot := fun m sig hr => by
    obtain ⟨a, ha, hslot⟩ := h.get?_slotsOf hl hr
    exact ⟨a, ha, by rw [shapeOf, h.filter_slotsOf hl, hslot]; rfl⟩
  noSlot := fun m hr => by
    rw [shapeOf, h.filter_slotsOf hl, h.get?_slotsOf_eq_none hl hr]
    rfl
  field := fun f => by
    have hget := h.get?_layoutOf hl f
    rw [Table.get?] at hget
    rw [shapeOf, filter_fst_eq (layoutOf line).nodup_keys, hget, Option.map_map]
    rfl

end Program.Declarations

/-- **The class table and both code generators have the same view of inheritance.**  Whatever the program, once it has been
elaborated each class has one layout and one virtual table, and these and the class's interface hold the members that the
class table finds from the class upwards.  What the code of the main class and of each method invokes is, call by call,
what the calls were resolved to. -/
theorem views_of_inheritance_agree (p : Program) (dump : Dump) (e : Elaborated)
    (h : (p.elaborate dump).result = .ok e) : ∃ interfaces code classes u,
    interfacesOf e.program = .ok interfaces ∧
      (Assembly.lowerProgram e.program).result = .ok (.main e.program.main.name.val code :: classes.map .cls) ∧
      (CUnit.lowerProgram e.program).result = .ok u ∧
      u.layouts.map (·.cls) = e.program.classes.map (·.name.val) ∧
      u.vtables.map (·.cls) = e.program.classes.map (·.name.val) ∧
      (∀ c ∈ e.program.classes, ∃ interface layout vtable, interfaces.get? c.name.val = some interface ∧
        u.layout? c.name.val = some layout ∧ u.vtable? c.name.val = some vtable ∧
        e.program.MembersAgree e.classes c.name.val interface layout vtable) ∧
      Invokes code e.program.main.body.calls ∧
      List.Forall₂ (fun (c : ClassDecl) (l : ClassListing) => l.name = c.name.val ∧
          List.Forall₂ (fun (m : Method) (l : MethodListing) => l.name = m.name.val ∧ Invokes l.code m.calls)
            c.methods l.methods)
        e.program.classes classes := by
  obtain ⟨hsound, -⟩ := elaborate_sound h
  obtain ⟨ls, hls⟩ := Assembly.lowerProgram_total hsound
  obtain ⟨u, hu⟩ := CUnit.lowerProgram_total hsound
  obtain ⟨interfaces, code, n, n', classes, hi, hmain, hclasses, rfl⟩ := Assembly.lowerProgram_sound hls
  obtain ⟨_, hi', hall⟩ := hsound.declarations.interfacesOf_agrees
  obtain ⟨_, hi'', hknows⟩ := hsound.declarations.interfacesOf_eq_ok
  cases hi.symm.trans hi'
  cases hi.symm.trans hi''
  obtain ⟨hlayouts, hvtables, hshapes⟩ := hsound.declarations.shapes_of_lowerProgram hu
  refine ⟨interfaces, code, classes, u, hi, hls, hu, hlayouts, hvtables, fun c hc => ?_,
    Frame.lowerStmt_invocations (serves_main hknows) hsound.marked.main hmain, ?_⟩
  · obtain ⟨interface, hget, hinterface⟩ := hall c hc
    obtain ⟨line, hl, hlayout, hvtable⟩ := hshapes c hc
    exact ⟨interface, _, _, hget, hlayout, hvtable, hsound.declarations.membersAgree hl hinterface⟩
  · refine ((List.forall₂_and_left _ _).2 ⟨hsound.marked.methods, hclasses⟩).imp fun c l ⟨hms, hname, hl⟩ => ⟨hname, ?_⟩
    refine ((List.forall₂_and_left _ _).2 ⟨hms, hl⟩).imp fun m l ⟨hm, hl⟩ => ⟨hl.name, ?_⟩
    obtain ⟨n, n', hc⟩ := hl.code
    exact Frame.lowerBody_invocations (serves_method hknows hm.distinct) hm hc

theorem views_of_inheritance_agree_on_sample : ∃ e, (Sample.program.elaborate ⟨true, true⟩).result = .ok e ∧
    ∃ interfaces code classes u, interfacesOf e.program = .ok interfaces ∧
      (Assembly.lowerProgram e.program).result = .ok (.main e.program.main.name.val code :: classes.map .cls) ∧
      (CUnit.lowerProgram e.program).result = .ok u ∧
      u.layouts.map (·.cls) = e.program.classes.map (·.name.val) ∧
      u.vtables.map (·.cls) = e.program.classes.map (·.name.val) ∧
      (∀ c ∈ e.program.classes, ∃ interface layout vtable, interfaces.get? c.name.val = some interface ∧
        u.layout? c.name.val = some layout ∧ u.vtable? c.name.val = some vtable ∧
        e.program.MembersAgree e.classes c.name.val interface layout vtable) ∧
      Invokes code e.program.main.body.calls ∧
      List.Forall₂ (fun (c : ClassDecl) (l : ClassListing) => l.name = c.name.val ∧
          List.Forall₂ (fun (m : Method) (l : MethodListing) => l.name = m.name.val ∧ Invokes l.code m.calls)
            c.methods l.methods)
        e.program.classes classes :=
  ⟨_, rfl, views_of_inheritance_agree Sample.program ⟨true, true⟩ _ rfl⟩

end MiniJava
