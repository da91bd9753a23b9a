import MiniJava.Proofs.CUnit.Total
/-!
# What a C unit holds

The unit of a program has a layout and a virtual table for each class, both made from the class's line, and a function
for each method (`lowerProgram_sound`).  In a sound program the names of the classes are distinct, so that a class finds
its own layout and its own table (`shapes_of_lowerProgram`).
-/
namespace MiniJava

def CUnit.layout? (u : CUnit) (c : Name) : Option CUnit.Layout := u.layouts.find? (·.cls = c)

def CUnit.vtable? (u : CUnit) (c : Name) : Option CUnit.Vtable := u.vtables.find? (·.cls = c)

namespace CUnit

/-- The layout and the virtual table that the line of `c` makes for it. -/
def shapeOf (c : Name) (line : List ClassDecl) : Layout × Vtable :=
  (⟨c, (layoutOf line).entries⟩, ⟨c, gcMapOf ((layoutOf line).entries.map (·.2)), (slotsOf line).values⟩)

/-- What the function of a method of the class `c` is: its types, the maps of its variables, and the code that the method's
body and result are given. -/
structure Defines (c : Name) (m : Method) (f : Function) : Prop where
  cls : f.cls = c
  name : f.name = m.name.val
  returns : f.returns = m.returns.val.storage
  formals : f.formals = m.formals.map Declaration.storage
  locals : f.locals = m.locals.map Declaration.storage
  argumentsMap : f.argumentsMap = gcMapOf (.object c :: m.formalStorages)
  localsMap : f.localsMap = gcMapOf (m.locals.map (·.ty.val.storage))
  code : lowerBody m [] = .ok ((f.body, f.result), f.temps)

theorem lowerMethod_sound {c : Name} {m : Method} {f : Function} (h : lowerMethod c m = .ok f) : Defines c m f := by
  simp only [lowerMethod, bind_eq_ok, pure_eq_ok, Prod.exists] at h
  obtain ⟨body, result, temps, hb, rfl⟩ := h
  exact ⟨rfl, rfl, rfl, rfl, rfl, rfl, rfl, hb⟩

theorem lowerClass_sound {c : ClassDecl} {fs : List Function} (h : (lowerClass c).result = .ok fs) :
    List.Forall₂ (Defines c.name.val) c.methods fs := by
  simp only [lowerClass, Logged.result_bind, Logged.result_note, Logged.result_ofExcept, bind_eq_ok] at h
  obtain ⟨_, -, hfs⟩ := h
  exact (mapM_eq_ok.1 hfs).imp fun _ _ => lowerMethod_sound

theorem lowerMain_sound {main : MainClass} {f : MainFunction} (h : (lowerMain main).result = .ok f) :
    lowerStmt [] main.body [] = .ok (f.body, f.temps) := by
  simp only [lowerMain, Logged.result_bind, Logged.result_note, Logged.result_ofExcept, Logged.result_pure, bind_eq_ok,
    Except.ok.injEq, Prod.exists] at h
  obtain ⟨_, -, body, temps, hb, rfl⟩ := h
  exact hb

theorem lowerShapes_sound {p : Program} {shapes : List (Layout × Vtable)} (h : (lowerShapes p).result = .ok shapes) :
    List.Forall₂ (fun c s => ∃ line, lineage p.classIndex c = .ok line ∧ s = shapeOf c line) p.classIndex.keys
      shapes := by
  simp only [lowerShapes, Logged.result_mapM, Logged.result_bind, Logged.result_liftM, Logged.result_note,
    Logged.result_pure] at h
  refine (mapM_eq_ok.1 h).imp fun c s hs => ?_
  obtain ⟨line, hline, hs⟩ := bind_eq_ok.1 hs
  obtain ⟨_, -, hs⟩ := bind_eq_ok.1 hs
  exact ⟨line, hline, (pure_eq_ok.1 hs).symm⟩

theorem lowerProgram_eq_ok {p : Program} {u : CUnit} : (lowerProgram p).result = .ok u ↔
    ∃ shapes functions main, (lowerShapes p).result = .ok shapes ∧
      List.Forall₂ (fun c fs => (lowerClass c).result = .ok fs) p.classes functions ∧
      (lowerMain p.main).result = .ok main ∧ u = ⟨shapes.map (·.1), shapes.map (·.2), functions.flatten, main⟩ := by
  simp only [lowerProgram, Logged.result_bind, Logged.result_pure, Logged.result_mapM, bind_eq_ok, mapM_eq_ok,
    Except.ok.injEq]
  constructor
  · rintro ⟨shapes, hs, functions, hf, main, hm, rfl⟩
    exact ⟨shapes, functions, main, hs, hf, hm, rfl⟩
  · rintro ⟨shapes, functions, main, hs, hf, hm, rfl⟩
    exact ⟨shapes, hs, functions, hf, main, hm, rfl⟩

/-- **What the unit of a program holds**: the shapes of its classes, then class by class the function of each method. -/
theorem lowerProgram_sound {p : Program} {u : CUnit} (h : (lowerProgram p).result = .ok u) :
    ∃ shapes functions, (lowerShapes p).result = .ok shapes ∧ u.layouts = shapes.map (·.1) ∧
      u.vtables = shapes.map (·.2) ∧
      List.Forall₂ (fun (c : ClassDecl) fs => List.Forall₂ (Defines c.name.val) c.methods fs) p.classes functions ∧
      u.functions = functions.flatten ∧ lowerStmt [] p.main.body [] = .ok (u.main.body, u.main.temps) := by
  obtain ⟨shapes, functions, main, hs, hf, hm, rfl⟩ := lowerProgram_eq_ok.1 h
  exact ⟨shapes, functions, hs, rfl, rfl, hf.imp fun _ _ => lowerClass_sound, rfl, lowerMain_sound hm⟩

end CUnit

namespace Program.Declarations

open CUnit

variable {p : Program} {t : ClassTable}

theorem keys_classIndex (h : p.Declarations t) : p.classIndex.keys = p.classes.map (·.name.val) := by
  have hn : ((p.classes.map fun c => (c.name.val, c)).map Prod.fst).Nodup := by
    rw [List.map_map]
    exact h.class_distinct
  rw [Table.keys, Program.classIndex, Table.entries_ofList hn, List.map_map]
  rfl

/-- **Each class has one layout and one virtual table**, those that its line makes. -/
theorem shapes_of_lowerProgram (h : p.Declarations t) {u : CUnit} (hu : (lowerProgram p).result = .ok u) :
    u.layouts.map (·.cls) = p.classes.map (·.name.val) ∧ u.vtables.map (·.cls) = p.classes.map (·.name.val) ∧
      ∀ c ∈ p.classes, ∃ line, p.LineOf t c.name.val line ∧ u.layout? c.name.val = some (shapeOf c.name.val line).1 ∧
        u.vtable? c.name.val = some (shapeOf c.name.val line).2 := by
  obtain ⟨shapes, _, hs, hl, hv, -⟩ := lowerProgram_sound hu
  have hshapes := lowerShapes_sound hs
  have hnames : ∀ name : Layout × Vtable → Name, (∀ c line, name (shapeOf c line) = c) →
      shapes.map name = p.classes.map (·.name.val) := by
    intro name hname
    rw [← h.keys_classIndex, ← List.map_id p.classIndex.keys]
    refine (map_eq_of_forall₂ id name hshapes ?_).symm
    rintro c _ ⟨line, -, rfl⟩
    exact (hname c line).symm
  have hlayouts : u.layouts.map (·.cls) = p.classes.map (·.name.val) := by
    rw [hl, List.map_map]
    exact hnames _ fun _ _ => rfl
  have hvtables : u.vtables.map (·.cls) = p.classes.map (·.name.val) := by
    rw [hv, List.map_map]
    exact hnames _ fun _ _ => rfl
  refine ⟨hlayouts, hvtables, fun c hc => ?_⟩
  obtain ⟨_, hmem, line, hline, rfl⟩ := forall₂_mem_left hshapes c.name.val
    (h.keys_classIndex ▸ List.mem_map_of_mem hc)
  obtain ⟨line', hline', hlineOf⟩ := h.lineage_eq_ok hc
  rw [hline] at hline'
  cases hline'
  have hlmem : (shapeOf c.name.val line).1 ∈ u.layouts := hl ▸ List.mem_map_of_mem hmem
  have hvmem : (shapeOf c.name.val line).2 ∈ u.vtables := hv ▸ List.mem_map_of_mem hmem
  exact ⟨line, hlineOf, find?_key_of_mem Layout.cls (hlayouts ▸ h.class_distinct) hlmem,
    find?_key_of_mem Vtable.cls (hvtables ▸ h.class_distinct) hvmem⟩

end Program.Declarations

end MiniJava
