import Mathlib.Data.List.Flatten
import Mathlib.Data.List.Nodup
import MiniJava.Proofs.CUnit.Declarators
import MiniJava.Proofs.CUnit.Symbols
import MiniJava.Proofs.CUnit.Temporaries
import MiniJava.Proofs.Grammar.Names
import MiniJava.Proofs.Inheritance.Dispatch
/-!
# The scopes of a C unit

C has one scope for the functions and variables of a file, another for its structures, one for the members of each
structure and one for the variables of each function, which hide those of the file.  Where the names of the program are
identifiers, no scope has two of one name, and the names within functions hide nothing (`names_distinct_of_elaborate`).

At file scope names are told apart by their parts: those of functions, tables, sizes and maps are of different number or
end in different words, and those of the runtime that have the number of a function's have a keyword in the second place.
Elsewhere the names that come from the program begin with one underscore, and the others with a letter or with two.
-/
namespace MiniJava

open CUnit

namespace CUnit

/-- What the runtime declares, and the main function that it calls. -/
def sharedDeclarators : List Declarator := runtimeDeclarators ++ [MainFunction.declarator]

/-- The functions and variables of the file. -/
def declarators (u : CUnit) : List Declarator :=
  sharedDeclarators ++ u.layouts.map Layout.size ++ u.vtables.map Vtable.table
    ++ u.functions.flatMap fun f => f.signature :: f.maps

def fileNames (u : CUnit) : List String := u.declarators.map (·.name)

/-- The structures of the file: the header, those of objects and of virtual tables, and frames. -/
def tags (u : CUnit) : List String :=
  ["Tiger_object_header"] ++ u.layouts.map (fun l => globalPart l.cls) ++ u.layouts.map (fun l => vtableTag l.cls)
    ++ u.functions.map Function.frameTag

/-- Variables of which no two have one name and none has a name of the file. -/
def HidesNothing (u : CUnit) (ds : List Declarator) : Prop :=
  (ds.map (·.name)).Nodup ∧ (ds.map (·.name)).Disjoint u.fileNames

/-- **No scope of the unit has two of one name.** -/
structure NamesDistinct (u : CUnit) : Prop where
  file : u.fileNames.Nodup
  tags : u.tags.Nodup
  header : (runtimeHeader.map (·.name)).Nodup
  objects : ∀ l ∈ u.layouts, (l.members.map (·.name)).Nodup
  tables : ∀ v ∈ u.vtables, (v.members.map (·.name)).Nodup
  frames : ∀ f ∈ u.functions, (f.frameMembers.map (·.name)).Nodup
  functions : ∀ f ∈ u.functions, u.HidesNothing (f.receiver :: f.parameters ++ f.ownVariables)
  main : u.HidesNothing u.main.ownVariables

/-! ## Where the names come from -/

/-- **What keeps the names of a unit apart**: its classes, its methods and what they declare have names of their own, and
these are identifiers. -/
structure Regular (u : CUnit) : Prop where
  layouts : (u.layouts.map (·.cls)).Nodup
  vtables : u.vtables.map (·.cls) = u.layouts.map (·.cls)
  functions : (u.functions.map fun f => (f.cls, f.name)).Nodup
  classNames : ∀ l ∈ u.layouts, IsIdentifier l.cls
  functionNames : ∀ f ∈ u.functions, f.cls ∈ u.layouts.map (·.cls) ∧ IsIdentifier f.name
  formalNames : ∀ f ∈ u.functions, ∀ x ∈ f.formals, IsIdentifier x.1
  fields : ∀ l ∈ u.layouts, (l.fields.map Prod.fst).Nodup
  slots : ∀ v ∈ u.vtables, (v.slots.map (·.method)).Nodup
  locals : ∀ f ∈ u.functions, (f.formals.map Prod.fst ++ f.locals.map Prod.fst).Nodup
  temps : ∀ f ∈ u.functions, (f.temps.map Prod.fst).Nodup
  mainTemps : (u.main.temps.map Prod.fst).Nodup

/-! ## File scope -/

/-- The parts of the names of a function and of its maps. -/
def functionParts (f : Function) : List (List Name) :=
  [[f.cls, f.name], [f.cls, f.name, "arguments", "gc", "map"], [f.cls, f.name, "locals", "gc", "map"]]

/-- The parts of the names at file scope. -/
def fileParts (u : CUnit) : List (List Name) :=
  [["prev"], ["Tiger", "new"], ["Tiger", "new", "array"], ["System", "out", "println"], ["Tiger", "main"]]
    ++ u.layouts.map (fun l => [l.cls, "size", ""]) ++ u.vtables.map (fun v => [v.cls, "vtable", ""])
    ++ u.functions.flatMap functionParts

def tagParts (u : CUnit) : List (List Name) :=
  [["Tiger", "object", "header"]] ++ u.layouts.map (fun l => [l.cls]) ++ u.layouts.map (fun l => [l.cls, "vtable"])
    ++ u.functions.map fun f => [f.cls, f.name, "gc", "frame"]

/-- What is made of different keys in a way that tells the keys is different. -/
theorem nodup_map_of_key {α κ β : Type} {xs : List α} {key : α → κ} (make : κ → β) (hmake : Function.Injective make)
    (h : (xs.map key).Nodup) : (xs.map fun x => make (key x)).Nodup := by
  have hmap := h.map hmake
  rwa [List.map_map] at hmap

section

variable {u : CUnit} (h : u.Regular)

include h

theorem Regular.symbolParts_fileNames : u.fileNames.map symbolParts = u.fileParts := by
  have hshared : sharedDeclarators.map (fun d => symbolParts d.name) =
      [["prev"], ["Tiger", "new"], ["Tiger", "new", "array"], ["System", "out", "println"], ["Tiger", "main"]] := by decide
  have hfunctions : u.functions.flatMap (fun f => (f.signature :: f.maps).map fun d => symbolParts d.name)
      = u.functions.flatMap functionParts := List.flatMap_congr fun f hf => by
    have hname := (h.functionNames f hf).2
    simp only [List.map_cons, List.map_nil, Function.signature, Function.maps, functionParts, f.symbolParts_symbol hname,
      f.symbolParts_argumentsMapSymbol hname, f.symbolParts_localsMapSymbol hname]
  simp only [fileNames, declarators, List.map_append, List.map_map, List.map_flatMap, Function.comp_def, hshared,
    hfunctions, Layout.size, Vtable.table, symbolParts_sizeSymbol, symbolParts_vtableSymbol, fileParts]

theorem Regular.symbolParts_tags : u.tags.map symbolParts = u.tagParts := by
  have hheader : symbolParts "Tiger_object_header" = ["Tiger", "object", "header"] := by decide
  have hframes : u.functions.map (fun f => symbolParts f.frameTag)
      = u.functions.map fun f => [f.cls, f.name, "gc", "frame"] := List.map_congr_left fun f hf => f.symbolParts_frameTag (h.functionNames f hf).2
  simp only [tags, List.map_append, List.map_map, List.map_cons, List.map_nil, Function.comp_def, hheader, hframes,
    symbolParts_globalPart, symbolParts_vtableTag, tagParts]

theorem Regular.nodup_functionParts : (u.functions.flatMap functionParts).Nodup := by
  rw [List.nodup_flatMap]
  refine ⟨fun f _ => by simp [functionParts], (List.pairwise_map.1 h.functions).imp fun {f g} hne => ?_⟩
  rintro parts hf hg
  have htake : ∀ {k : Function}, parts ∈ functionParts k → parts.take 2 = [k.cls, k.name] := fun {k} hk => by
    simp only [functionParts, List.mem_cons, List.not_mem_nil, or_false] at hk
    rcases hk with rfl | rfl | rfl <;> rfl
  have heq := (htake hf).symm.trans (htake hg)
  simp only [List.cons.injEq, and_true] at heq
  exact hne (Prod.ext heq.1 heq.2)

/-- The names of methods are no keywords, unlike those in the names of the runtime. -/
theorem Regular.method_ne : ∀ f ∈ u.functions, f.name ≠ "new" ∧ f.name ≠ "main" := fun f hf => by
  have hname := (h.functionNames f hf).2
  constructor <;> intro heq <;> exact absurd (heq ▸ hname) (by decide)

theorem Regular.nodup_fileParts : u.fileParts.Nodup := by
  have hsizes : (u.layouts.map fun l => [l.cls, "size", ""]).Nodup :=
    nodup_map_of_key (fun c : Name => [c, "size", ""]) (fun _ _ heq => (List.cons.inj heq).1) h.layouts
  have htables : (u.vtables.map fun v => [v.cls, "vtable", ""]).Nodup :=
    nodup_map_of_key (fun c : Name => [c, "vtable", ""]) (fun _ _ heq => (List.cons.inj heq).1) (h.vtables ▸ h.layouts)
  refine List.nodup_append.2 ⟨List.nodup_append.2 ⟨List.nodup_append.2 ⟨by decide, hsizes, ?_⟩, htables, ?_⟩,
    h.nodup_functionParts, ?_⟩
  · simp
  · simp
  -- A name of the runtime with as many parts as a function's has a keyword where that has its method.
  · rintro parts hparts _ hfunction rfl
    obtain ⟨f, hf, hfunction⟩ := List.mem_flatMap.1 hfunction
    obtain ⟨hnew, hmain⟩ := h.method_ne f hf
    simp only [functionParts, List.mem_cons, List.not_mem_nil, or_false] at hfunction
    rcases hfunction with rfl | rfl | rfl <;> simp [hnew, hmain] at hparts

theorem Regular.nodup_tagParts : u.tagParts.Nodup := by
  have hclasses : (u.layouts.map fun l => [l.cls]).Nodup :=
    nodup_map_of_key (fun c : Name => [c]) (fun _ _ heq => (List.cons.inj heq).1) h.layouts
  have htables : (u.layouts.map fun l => [l.cls, "vtable"]).Nodup :=
    nodup_map_of_key (fun c : Name => [c, "vtable"]) (fun _ _ heq => (List.cons.inj heq).1) h.layouts
  have hframes : (u.functions.map fun f => [f.cls, f.name, "gc", "frame"]).Nodup :=
    nodup_map_of_key (fun k : Name × Name => [k.1, k.2, "gc", "frame"])
      (fun j k heq => by simp only [List.cons.injEq, and_true] at heq; exact Prod.ext heq.1 heq.2) h.functions
  refine List.nodup_append.2 ⟨List.nodup_append.2 ⟨List.nodup_append.2 ⟨by decide, hclasses, ?_⟩, htables, ?_⟩, hframes, ?_⟩
  · simp
  · simp
  · rintro parts hparts _ hframe rfl
    obtain ⟨f, -, rfl⟩ := List.mem_map.1 hframe
    simp at hparts

/-- A name of the file does not begin with an underscore. -/
theorem Regular.head?_fileNames : ∀ s ∈ u.fileNames, s.toList.head? ≠ some '_' := by
  have hglobal : ∀ c, IsIdentifier c → ∀ suffix : String, (globalPart c ++ suffix).toList.head? ≠ some '_' := by
    intro c hc suffix
    rw [head?_globalPart_append hc]
    exact hc.head?_ne
  have hclass : ∀ c ∈ u.layouts.map (·.cls), IsIdentifier c := List.forall_mem_map.2 h.classNames
  simp only [fileNames, declarators, List.map_append, List.map_flatMap, List.map_map]
  refine List.forall_mem_append.2 ⟨List.forall_mem_append.2 ⟨List.forall_mem_append.2 ⟨by decide, ?_⟩, ?_⟩, ?_⟩
  · exact List.forall_mem_map.2 fun l hl => hglobal l.cls (h.classNames l hl) "_size_"
  · exact List.forall_mem_map.2 fun v hv =>
      hglobal v.cls (hclass v.cls (h.vtables ▸ List.mem_map_of_mem hv)) "_vtable_"
  · intro s hs
    obtain ⟨f, hf, hs⟩ := List.mem_flatMap.1 hs
    have hsymbol : ∀ suffix, (f.symbol ++ suffix).toList.head? ≠ some '_' := fun suffix => by
      rw [Function.symbol, methodSymbol, String.append_assoc, String.append_assoc]
      exact hglobal f.cls (hclass f.cls (h.functionNames f hf).1) _
    simp only [Function.signature, Function.maps, List.map_cons, List.map_nil, List.mem_cons, List.not_mem_nil,
      or_false] at hs
    rcases hs with rfl | rfl | rfl
    · exact @String.append_empty f.symbol ▸ hsymbol ""
    · exact hsymbol "_arguments_gc_map"
    · exact hsymbol "_locals_gc_map"

theorem Regular.this_notMem_fileNames : "this" ∉ u.fileNames := fun hthis => by
  have hparts : symbolParts "this" ∈ u.fileParts := h.symbolParts_fileNames ▸ List.mem_map_of_mem hthis
  have hone : symbolParts "this" = ["this"] := by decide
  rw [hone] at hparts
  simp [fileParts, functionParts] at hparts

end

/-! ## Members and variables -/

/-- Members that a structure has of itself, and then those of the program. -/
theorem nodup_members {fixed : List String} (hfixed : fixed.Nodup) (hother : ∀ s ∈ fixed, s.toList.head? ≠ some '_')
    {xs : List Name} (h : xs.Nodup) : (fixed ++ xs.map memberName).Nodup := by
  refine List.nodup_append.2 ⟨hfixed, h.map memberName_injective, ?_⟩
  rintro s hs _ hx rfl
  obtain ⟨x, -, rfl⟩ := List.mem_map.1 hx
  exact hother _ hs (congrArg List.head? (toList_memberName x))

/-- The names that a function needs for itself begin with two underscores, and those of its formals with one. -/
theorem memberName_ne {x : Name} (hx : IsIdentifier x) {s : String} (hs : s.toList.take 2 = ['_', '_']) :
    memberName x ≠ s := by
  rintro rfl
  obtain ⟨c, cs, hchars, -⟩ := hx.exists_chars
  have hhead := hx.head?_ne
  rw [toList_memberName, hchars] at hs
  rw [hchars] at hhead
  simp only [List.take_succ_cons, List.take_zero, List.cons.injEq, true_and, and_true] at hs
  exact hhead (congrArg some hs)

/-- The variables that a function has of itself, between them its temporaries. -/
theorem nodup_ownVariables {temps : List Nat} (h : temps.Nodup) :
    ("__frame" :: temps.map tempName ++ ["__result"]).Nodup := by
  have hother : ∀ s : String, s.toList.take 3 ≠ ['_', '_', 't'] → s ∉ temps.map tempName := fun s hs hmem => by
    obtain ⟨n, -, rfl⟩ := List.mem_map.1 hmem
    rw [toList_tempName] at hs
    exact hs rfl
  have htemps : ("__frame" :: temps.map tempName).Nodup :=
    List.nodup_cons.2 ⟨hother _ (by decide), h.map tempName_injective⟩
  refine List.nodup_append.2 ⟨htemps, List.nodup_singleton _, ?_⟩
  rintro s hs _ hresult rfl
  cases List.mem_singleton.1 hresult
  exact (List.mem_cons.1 hs).elim (by decide) (hother _ (by decide))

theorem nodup_variables {formals : List Name} {temps : List Nat} (hformals : formals.Nodup) (htemps : temps.Nodup)
    (hnames : ∀ x ∈ formals, IsIdentifier x) :
    ("this" :: formals.map memberName ++ ("__frame" :: temps.map tempName ++ ["__result"])).Nodup := by
  have hown : ∀ s ∈ "__frame" :: temps.map tempName ++ ["__result"], s.toList.take 2 = ['_', '_'] := by
    refine List.forall_mem_append.2 ⟨List.forall_mem_cons.2 ⟨by decide, List.forall_mem_map.2 fun n _ => ?_⟩, by decide⟩
    rw [toList_tempName]
    rfl
  have hparameters := nodup_members (List.nodup_singleton "this") (by decide) hformals
  refine List.nodup_append.2 ⟨hparameters, nodup_ownVariables htemps, ?_⟩
  rintro s hs _ hmem rfl
  rcases List.mem_cons.1 hs with rfl | hs
  · exact absurd (hown _ hmem) (by decide)
  · obtain ⟨x, hx, rfl⟩ := List.mem_map.1 hs
    exact memberName_ne (hnames x hx) (hown _ hmem) rfl

theorem names_ofVariable (xs : List (Name × Storage)) :
    (xs.map Declarator.ofVariable).map (·.name) = (xs.map Prod.fst).map memberName := by
  rw [List.map_map, List.map_map]
  rfl

theorem names_ofTemp (ts : List (Nat × Storage)) :
    (ts.map Declarator.ofTemp).map (·.name) = (ts.map Prod.fst).map tempName := by
  rw [List.map_map, List.map_map]
  rfl

theorem Layout.names_members (l : Layout) :
    l.members.map (·.name) = runtimeHeader.map (·.name) ++ (l.fields.map Prod.fst).map memberName := by
  rw [Layout.members, List.map_append, names_ofVariable]
  rfl

theorem Vtable.names_members (v : Vtable) :
    v.members.map (·.name) = ["class_gc_map"] ++ (v.slots.map (·.method)).map memberName := by
  rw [Vtable.members, List.map_cons, List.map_map, List.map_map]
  rfl

theorem Function.names_frameMembers (f : Function) : f.frameMembers.map (·.name) =
    ["prev", "arguments_base_address", "arguments_gc_map", "locals_gc_map"] ++ (f.locals.map Prod.fst).map memberName := by
  rw [Function.frameMembers, List.map_append, names_ofVariable]
  rfl

theorem Function.names_variables (f : Function) : (f.receiver :: f.parameters ++ f.ownVariables).map (·.name) =
    "this" :: (f.formals.map Prod.fst).map memberName
      ++ ("__frame" :: (f.temps.map Prod.fst).map tempName ++ ["__result"]) := by
  rw [List.map_append, List.map_cons, Function.parameters, names_ofVariable, Function.ownVariables, List.map_append,
    List.map_cons, names_ofTemp]
  rfl

/-! ## Every scope -/

theorem Regular.namesDistinct {u : CUnit} (h : u.Regular) : u.NamesDistinct where
  file := List.Nodup.of_map symbolParts (h.symbolParts_fileNames ▸ h.nodup_fileParts)
  tags := List.Nodup.of_map symbolParts (h.symbolParts_tags ▸ h.nodup_tagParts)
  header := by decide
  objects := fun l hl => by
    rw [l.names_members]
    exact nodup_members (by decide) (by decide) (h.fields l hl)
  tables := fun v hv => by
    rw [v.names_members]
    exact nodup_members (by decide) (by decide) (h.slots v hv)
  frames := fun f hf => by
    rw [f.names_frameMembers]
    exact nodup_members (by decide) (by decide) (List.Nodup.of_append_right (h.locals f hf))
  functions := fun f hf => by
    have hformals : ∀ x ∈ f.formals.map Prod.fst, IsIdentifier x := List.forall_mem_map.2 (h.formalNames f hf)
    rw [HidesNothing, f.names_variables]
    refine ⟨nodup_variables (List.Nodup.of_append_left (h.locals f hf)) (h.temps f hf) hformals, fun s hs hfile => ?_⟩
    have hhead := h.head?_fileNames s hfile
    simp only [List.mem_append, List.mem_cons, List.mem_map, List.not_mem_nil, or_false] at hs
    rcases hs with (rfl | ⟨x, -, rfl⟩) | (rfl | ⟨n, -, rfl⟩) | rfl
    · exact h.this_notMem_fileNames hfile
    · exact hhead (congrArg List.head? (toList_memberName x))
    · exact hhead rfl
    · exact hhead (congrArg List.head? (toList_tempName n))
    · exact hhead rfl
  main := by
    rw [HidesNothing, MainFunction.ownVariables, names_ofTemp]
    refine ⟨h.mainTemps.map tempName_injective, fun s hs hfile => ?_⟩
    obtain ⟨n, -, rfl⟩ := List.mem_map.1 hs
    exact h.head?_fileNames _ hfile (congrArg List.head? (toList_tempName n))

/-- The functions of a unit have the classes and the names of the methods. -/
theorem functions_of_lowerProgram {p : Program} {u : CUnit} (hu : (lowerProgram p).result = .ok u) :
    (∀ f ∈ u.functions, ∃ c ∈ p.classes, ∃ m ∈ c.methods, Defines c.name.val m f) ∧
      u.functions.map (fun f => (f.cls, f.name)) =
        p.classes.flatMap fun c => c.methods.map fun m => (c.name.val, m.name.val) := by
  obtain ⟨_, functions, -, -, -, hfunctions, hflat, -⟩ := lowerProgram_sound hu
  rw [hflat]
  constructor
  · intro f hf
    obtain ⟨fs, hfs, hf⟩ := List.mem_flatten.1 hf
    obtain ⟨c, hc, hdefines⟩ := forall₂_mem_right hfunctions fs hfs
    obtain ⟨m, hm, hdefine⟩ := forall₂_mem_right hdefines f hf
    exact ⟨c, hc, m, hm, hdefine⟩
  · rw [List.map_flatten, List.flatMap_def]
    refine congrArg List.flatten (map_eq_of_forall₂ _ _ hfunctions fun c fs hfs => ?_).symm
    refine map_eq_of_forall₂ _ _ hfs fun m f hf => ?_
    rw [hf.cls, hf.name]

theorem exists_function_of_mem {p : Program} {u : CUnit} (hu : (lowerProgram p).result = .ok u) {c : ClassDecl}
    (hc : c ∈ p.classes) {m : Method} (hm : m ∈ c.methods) : ∃ f ∈ u.functions, Defines c.name.val m f := by
  obtain ⟨_, functions, -, -, -, hfunctions, hflat, -⟩ := lowerProgram_sound hu
  obtain ⟨fs, hfs, hdefines⟩ := forall₂_mem_left hfunctions c hc
  obtain ⟨f, hf, hdefine⟩ := forall₂_mem_left hdefines m hm
  exact ⟨f, hflat ▸ List.mem_flatten_of_mem hfs hf, hdefine⟩

/-- Every layout and every virtual table of a unit is made from the line of a class. -/
theorem exists_line_of_mem {p : Program} {t : ClassTable} (h : p.Declarations t) {u : CUnit}
    (hu : (lowerProgram p).result = .ok u) :
    (∀ l ∈ u.layouts, ∃ c ∈ p.classes, ∃ line, p.LineOf t c.name.val line ∧ l = (shapeOf c.name.val line).1) ∧
      ∀ v ∈ u.vtables, ∃ c ∈ p.classes, ∃ line, p.LineOf t c.name.val line ∧ v = (shapeOf c.name.val line).2 := by
  obtain ⟨hlayouts, hvtables, hshapes⟩ := h.shapes_of_lowerProgram hu
  constructor
  · intro l hl
    have hfind : u.layout? l.cls = some l := find?_key_of_mem Layout.cls (hlayouts ▸ h.class_distinct) hl
    obtain ⟨c, hc, hname⟩ := List.mem_map.1 (hlayouts ▸ List.mem_map_of_mem hl)
    obtain ⟨line, hline, hshape, -⟩ := hshapes c hc
    rw [hname, hfind, ← hname] at hshape
    exact ⟨c, hc, line, hline, Option.some.inj hshape⟩
  · intro v hv
    have hfind : u.vtable? v.cls = some v := find?_key_of_mem Vtable.cls (hvtables ▸ h.class_distinct) hv
    obtain ⟨c, hc, hname⟩ := List.mem_map.1 (hvtables ▸ List.mem_map_of_mem hv)
    obtain ⟨line, hline, -, hshape⟩ := hshapes c hc
    rw [hname, hfind, ← hname] at hshape
    exact ⟨c, hc, line, hline, Option.some.inj hshape⟩

/-- Neither does a layout hold two fields of one name nor a virtual table two methods. -/
theorem shapes_distinct {p : Program} {t : ClassTable} (h : p.Declarations t) {u : CUnit}
    (hu : (lowerProgram p).result = .ok u) : (∀ l ∈ u.layouts, (l.fields.map Prod.fst).Nodup) ∧
      ∀ v ∈ u.vtables, (v.slots.map (·.method)).Nodup := by
  obtain ⟨hlayouts, hvtables⟩ := exists_line_of_mem h hu
  constructor
  · intro l hl
    obtain ⟨c, -, line, -, rfl⟩ := hlayouts l hl
    exact (layoutOf line).nodup_keys
  · intro v hv
    obtain ⟨c, -, line, hline, rfl⟩ := hvtables v hv
    rw [h.methods_shapeOf hline]
    exact (slotsOf line).nodup_keys

/-- No class declares two methods of one name. -/
theorem methods_distinct {p : Program} {t : ClassTable} (h : p.Declarations t) :
    (p.classes.flatMap fun c => c.methods.map fun m => (c.name.val, m.name.val)).Nodup := by
  rw [List.nodup_flatMap]
  refine ⟨fun c hc => ?_, (List.pairwise_map.1 h.class_distinct).imp fun {c d} hne => ?_⟩
  · exact nodup_map_of_key (c.name.val, ·) (fun _ _ heq => (Prod.mk.inj heq).2) (h.methodNames_distinct hc)
  · rintro _ hmc hmd
    obtain ⟨m, -, rfl⟩ := List.mem_map.1 hmc
    obtain ⟨k, -, hk⟩ := List.mem_map.1 hmd
    exact hne (Prod.mk.inj hk).1.symm

/-- **A sound program whose declared names are identifiers has a regular unit.** -/
theorem regular_of_lowerProgram {e : Elaborated} (h : e.Sound) (hnames : ∀ x ∈ e.program.declaredNames, IsIdentifier x)
    {u : CUnit} (hu : (lowerProgram e.program).result = .ok u) : u.Regular := by
  obtain ⟨hlayouts, hvtables, -⟩ := h.declarations.shapes_of_lowerProgram hu
  obtain ⟨hdefines, hkeys⟩ := functions_of_lowerProgram hu
  obtain ⟨hfields, hslots⟩ := shapes_distinct h.declarations hu
  obtain ⟨_, _, -, -, -, -, -, hmain⟩ := lowerProgram_sound hu
  have hclass : ∀ c ∈ e.program.classes, ∀ x ∈ c.declaredNames, IsIdentifier x := fun c hc x hx =>
    hnames x (List.mem_flatMap.2 ⟨c, hc, hx⟩)
  have hmethod : ∀ c ∈ e.program.classes, ∀ m ∈ c.methods, ∀ x ∈ m.declaredNames, IsIdentifier x := fun c hc m hm x hx =>
    hclass c hc x (List.mem_cons_of_mem _ (List.mem_append_right _ (List.mem_flatMap.2 ⟨m, hm, hx⟩)))
  refine ⟨hlayouts ▸ h.declarations.class_distinct, hvtables.trans hlayouts.symm, hkeys ▸ methods_distinct h.declarations,
    fun l hl => ?_, fun f hf => ?_, fun f hf x hx => ?_, hfields, hslots, fun f hf => ?_, fun f hf => ?_, ?_⟩
  · obtain ⟨c, hc, hname⟩ := List.mem_map.1 (hlayouts ▸ List.mem_map_of_mem hl)
    exact hname ▸ hclass c hc _ List.mem_cons_self
  · obtain ⟨c, hc, m, hm, hdefine⟩ := hdefines f hf
    rw [hlayouts, hdefine.cls, hdefine.name]
    exact ⟨List.mem_map_of_mem hc, hmethod c hc m hm _ List.mem_cons_self⟩
  · obtain ⟨c, hc, m, hm, hdefine⟩ := hdefines f hf
    rw [hdefine.formals] at hx
    obtain ⟨d, hd, rfl⟩ := List.mem_map.1 hx
    exact hmethod c hc m hm _ (List.mem_cons_of_mem _ (List.mem_map_of_mem (List.mem_append_left _ hd)))
  · obtain ⟨c, hc, m, hm, hdefine⟩ := hdefines f hf
    rw [hdefine.formals, hdefine.locals, ← List.map_append, ← List.map_append, List.map_map]
    exact (h.marked.methods c hc m hm).distinct
  · obtain ⟨c, hc, m, hm, hdefine⟩ := hdefines f hf
    have hnumbered : Numbered f.temps := hdefine.numbered
    exact hnumbered ▸ List.nodup_range
  · have hnumbered : Numbered u.main.temps := (lowersStmt_of_lowerStmt hmain).continues.numbered numbered_nil
    exact hnumbered ▸ List.nodup_range

end CUnit

/-- **The names of a C unit never collide.**  Whatever the program, once it has been elaborated, and if the names that it
declares are identifiers, it has a unit in which all functions, tables, sizes and maps have different names, none of which
is a name of the runtime; all structures have different tags, none of which is the header's; the members of each structure
have different names; and so have the parameters and variables of each function, which hide no name of the file. -/
theorem names_distinct_of_elaborate (p : Program) (dump : Dump) (e : Elaborated) (h : (p.elaborate dump).result = .ok e)
    (hnames : ∀ x ∈ p.declaredNames, IsIdentifier x) :
    ∃ u, (lowerProgram e.program).result = .ok u ∧ u.NamesDistinct := by
  obtain ⟨hsound, hunmark⟩ := elaborate_sound h
  obtain ⟨u, hu⟩ := lowerProgram_total hsound
  have hnames' : ∀ x ∈ e.program.declaredNames, IsIdentifier x := by
    rwa [← Program.declaredNames_unmark, hunmark, Program.declaredNames_unmark]
  exact ⟨u, hu, (regular_of_lowerProgram hsound hnames' hu).namesDistinct⟩

theorem names_distinct_on_sample : ∃ e u, (Sample.program.elaborate ⟨false, false⟩).result = .ok e ∧
    (∀ x ∈ Sample.program.declaredNames, IsIdentifier x) ∧ (lowerProgram e.program).result = .ok u ∧ u.NamesDistinct := by
  have hnames : ∀ x ∈ Sample.program.declaredNames, IsIdentifier x := by decide
  obtain ⟨u, hu, hdistinct⟩ := names_distinct_of_elaborate Sample.program ⟨false, false⟩ _ rfl hnames
  exact ⟨_, u, rfl, hnames, hu, hdistinct⟩

end MiniJava
