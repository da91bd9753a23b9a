import MiniJava.Proofs.CUnit.Objects
import MiniJava.Proofs.CUnit.Scopes
import MiniJava.Proofs.Inheritance.Cells
/-!
# What the collector is told

The collector knows objects and frames by their maps alone: behind the header it goes on by an integer for each `0` and by a
pointer for each `1` (`collect`).  What C makes of the structures it knows from their declarations: they are packed, so that
each member begins where the one before it ends (`placed`), and a member is as wide as its type is written.

Maps and declarations are made apart.  A map that has a bit for each declaration, set where the type is a pointer's, leads
the collector to the pointers and to nothing else, and to the end of the structure (`collect_eq`).  The maps of an elaborated
program are such, of its objects, of its frames and of the arguments of its functions (`collector_maps_exact`).
-/
namespace MiniJava

/-- A reference is an array or an object. -/
theorem Ty.isReference_iff {ty : Ty} : ty.isReference = true ↔ ty = .intArray ∨ ∃ c, ty = .object c := by
  cases ty <;> simp [Ty.isReference, Ty.storage, Storage.isReference]

namespace CUnit

/-! ## Packed structures -/

/-- Whether the type that is written in front of the name is that of a pointer. -/
def Declarator.isPointer (d : Declarator) : Bool := d.before.toList.getLast? = some '*'

/-- The members of a packed structure with the bytes at which they begin, the first at `start`. -/
def placed (z : Sizes) (start : Nat) : List Declarator → List (Nat × Declarator)
  | [] => []
  | d :: ds => (start, d) :: placed z (start + z.of d.isPointer) ds

/-- How many bytes the members of a packed structure take. -/
def packedSize (z : Sizes) (ds : List Declarator) : Nat := ((ds.map Declarator.isPointer).map z.of).sum

/-- The bytes at which pointers begin. -/
def pointersOf (members : List (Nat × Declarator)) : List Nat := (members.filter (·.2.isPointer)).map (·.1)

/-- **The walk of the collector** from the byte `start` on, by the characters of a map: the bytes at which it finds
references, and the one at which it stops. -/
def collect (z : Sizes) (start : Nat) : List Char → List Nat × Nat
  | [] => ([], start)
  | bit :: map =>
    if bit = '1' then (collect z (start + z.pointer) map).map (start :: ·) id else collect z (start + z.int) map

section

variable {z : Sizes} {start : Nat} {ds es : List Declarator}

theorem length_placed : ∀ {ds : List Declarator} {start : Nat}, (placed z start ds).length = ds.length
  | [], _ => rfl
  | _ :: _, _ => congrArg (· + 1) length_placed

theorem placed_append : ∀ {ds : List Declarator} {start : Nat},
    placed z start (ds ++ es) = placed z start ds ++ placed z (start + packedSize z ds) es
  | [], _ => rfl
  | d :: ds, start => by
    rw [List.cons_append, placed, placed_append, Nat.add_assoc]
    rfl

theorem drop_placed : (placed z start (ds ++ es)).drop ds.length = placed z (start + packedSize z ds) es := by
  have hlength : (placed z start ds).length = ds.length := length_placed
  rw [placed_append, ← hlength, List.drop_left]

theorem packedSize_append : packedSize z (ds ++ es) = packedSize z ds + packedSize z es := by
  rw [packedSize, List.map_append, List.map_append, List.sum_append]
  rfl

/-- A member begins where those before it end. -/
theorem getElem?_placed : ∀ {ds : List Declarator} {start i : Nat},
    (placed z start ds)[i]? = ds[i]?.map fun d => (start + packedSize z (ds.take i), d)
  | [], _, _ => rfl
  | _ :: _, _, 0 => rfl
  | d :: ds, start, i + 1 => by
    rw [placed, List.getElem?_cons_succ, List.getElem?_cons_succ, getElem?_placed, List.take_succ_cons, Nat.add_assoc]
    rfl

theorem toList_text (map : GcMap) : (GcMap.text map).toList = map.map fun bit => if bit then '1' else '0' :=
  String.toList_ofList

/-- **A map with a bit for each member leads to the pointers among them**, and to their end. -/
theorem collect_eq : ∀ {ds : List Declarator} {start : Nat},
    collect z start (GcMap.text (ds.map Declarator.isPointer)).toList =
      (pointersOf (placed z start ds), start + packedSize z ds)
  | [], _ => rfl
  | d :: ds, start => by
    have hsize : packedSize z (d :: ds) = z.of d.isPointer + packedSize z ds := rfl
    have ih := @collect_eq ds (start + z.of d.isPointer)
    rw [toList_text] at ih ⊢
    rw [placed, pointersOf, hsize, ← Nat.add_assoc, List.map_cons, List.map_cons, collect]
    cases hd : d.isPointer <;> rw [hd] at ih
    · rw [if_neg (by decide), List.filter_cons_of_neg (by simp [hd])]
      exact ih
    · rw [if_pos rfl, List.filter_cons_of_pos (by simp [hd])]
      exact congrArg (Prod.map (start :: ·) id) ih

end

/-! ## The types of declarations -/

/-- The declaration of a variable of the program under the name that it has in C. -/
def declaratorOf (x : String × Ty) : Declarator := .ofStorage x.1 x.2.storage

theorem isPointer_of_star (type name after : String) : (⟨type ++ " *", name, after⟩ : Declarator).isPointer = true := by
  have hlast : (type ++ " *").toList = (type.toList ++ [' ']) ++ ['*'] := by simp
  rw [Declarator.isPointer, hlast, List.getLast?_concat]
  rfl

theorem isPointer_ofStorage (name : String) (s : Storage) : (Declarator.ofStorage name s).isPointer = s.isReference := by
  cases s with
  | int =>
    have hint : (Storage.int.declare "").toList.getLast? ≠ some '*' := by decide
    exact decide_eq_false hint
  | intArray =>
    have harray : (Storage.intArray.declare "").toList.getLast? = some '*' := by decide
    exact decide_eq_true harray
  | object c =>
    have hobject : (Storage.object c).declare "" = "struct " ++ globalPart c ++ " *" := String.append_empty
    rw [Declarator.ofStorage, hobject]
    exact isPointer_of_star _ _ _

theorem map_isPointer_declaratorOf (xs : List (String × Ty)) :
    (xs.map declaratorOf).map Declarator.isPointer = xs.map (·.2.isReference) := by
  rw [List.map_map]
  exact List.map_congr_left fun x _ => isPointer_ofStorage x.1 x.2.storage

/-- **The map describes the variables**: it has one bit for each, in order, which is set just for arrays and objects. -/
def GcMap.Describes (map : GcMap) (xs : List (String × Ty)) : Prop :=
  List.Forall₂ (fun bit x => bit = true ↔ x.2 = .intArray ∨ ∃ c, x.2 = .object c) map xs

theorem describes_map (xs : List (String × Ty)) : GcMap.Describes (xs.map (·.2.isReference)) xs :=
  List.forall₂_map_left_iff.2 (List.forall₂_same.2 fun _ _ => Ty.isReference_iff)

/-- **The map fits the packed structure**, which has its own members `header` first and then one for each of the variables.
From the end of the header on the collector comes to the members behind it that are pointers, at the bytes where they begin,
and stops at the end of the structure. -/
structure GcMap.Fits (map : GcMap) (header members : List Declarator) (xs : List (String × Ty)) : Prop where
  declared : members = header ++ xs.map declaratorOf
  describes : map.Describes xs
  walk : ∀ z, collect z (packedSize z header) (GcMap.text map).toList =
    (pointersOf ((placed z 0 members).drop header.length), packedSize z members)

theorem GcMap.fits_of_eq {map : GcMap} {header members : List Declarator} {xs : List (String × Ty)}
    (hmembers : members = header ++ xs.map declaratorOf) (hmap : map = xs.map (·.2.isReference)) :
    map.Fits header members xs where
  declared := hmembers
  describes := hmap ▸ describes_map xs
  walk := fun z => by
    rw [hmembers, drop_placed, Nat.zero_add, packedSize_append, hmap, ← map_isPointer_declaratorOf, collect_eq]

/-! ## Objects -/

/-- What every object begins with: its virtual table, and the members of the header. -/
def Layout.header (l : Layout) : List Declarator :=
  headerMembersAfter ⟨"struct " ++ (vtableTag l.cls ++ " *"), "vptr", ""⟩

/-- The header takes as many bytes as in front of any object. -/
theorem Layout.packedSize_header (l : Layout) (z : Sizes) : packedSize z l.header = z.header := by
  have hvptr : Declarator.isPointer ⟨"struct " ++ (vtableTag l.cls ++ " *"), "vptr", ""⟩ = true := by
    rw [← String.append_assoc]
    exact isPointer_of_star _ _ _
  have hrest : [Declarator.isPointer ⟨"int ", "isObjOrArray", ""⟩, Declarator.isPointer ⟨"unsigned ", "length", ""⟩,
      Declarator.isPointer ⟨"void *", "forwarding", ""⟩] = [false, false, true] := by decide
  simp only [List.cons.injEq, and_true] at hrest
  obtain ⟨hkind, hlength, hforwarding⟩ := hrest
  simp only [packedSize, header, headerMembersAfter, List.map_cons, List.map_nil, hvptr, hkind, hlength, hforwarding,
    Sizes.of, Sizes.header, List.sum_cons, List.sum_nil]
  simp only [if_true, Bool.false_eq_true, if_false]
  omega

/-- **The members of an object behind its header are its fields**, at the bytes where code finds them. -/
theorem Layout.getElem?_placed_members (l : Layout) (z : Sizes) (i : Nat) :
    ((placed z 0 l.members).drop l.header.length)[i]? = l.fields[i]?.map fun x => (l.offset z i, .ofVariable x) := by
  have hwidths : (l.fields.map Declarator.ofVariable).map Declarator.isPointer = l.widths := by
    rw [List.map_map]
    exact List.map_congr_left fun x _ => isPointer_ofStorage (memberName x.1) x.2
  have hoffset : packedSize z l.header + packedSize z ((l.fields.map Declarator.ofVariable).take i) = l.offset z i := by
    rw [l.packedSize_header, packedSize, List.map_take, hwidths]
    rfl
  have hmembers : l.members = l.header ++ l.fields.map Declarator.ofVariable := rfl
  rw [hmembers, drop_placed, Nat.zero_add, getElem?_placed, hoffset, List.getElem?_map, Option.map_map]
  rfl

/-- What every frame begins with: the frame before it, the arguments, and the maps. -/
def frameHeader : List Declarator :=
  [⟨"void *", "prev", ""⟩, ⟨"int *", "arguments_base_address", ""⟩, ⟨"char *", "arguments_gc_map", ""⟩,
    ⟨"char *", "locals_gc_map", ""⟩]

def variableName (d : Declaration) : String × Ty := (memberName d.name.val, d.ty.val)

/-- A field of the program with its nearest type, under its name in C. -/
def fieldName (x : Name × Ty) : String × Ty := (memberName x.1, x.2)

/-- **The map of a class describes its objects.**  The fields are those that the class has or inherits, each once and with the
type that the nearest class gives it. -/
structure MapsObjects (t : ClassTable) (c : Name) (l : Layout) (v : Vtable) (xs : List (Name × Ty)) : Prop where
  emitted : l.members.map Declarator.line <:+: layoutLines l ∧ "  \"" ++ GcMap.text v.gcMap ++ "\"," ∈ vtableLines v
  distinct : (xs.map Prod.fst).Nodup
  nearest : ∀ f ty, (f, ty) ∈ xs ↔ t.resolveField c f = some ty
  fits : v.gcMap.Fits l.header l.members (xs.map fieldName)

/-- **The maps of a function describe its frame and its arguments**, with the types that the method declares. -/
structure MapsVariables (m : Method) (f : Function) : Prop where
  emitted : f.maps.map (·.text ++ ";") <+: functionLines f ∧ f.frameMembers.map Declarator.line <:+: functionLines f ∧
    "static " ++ f.signature.text ∈ functionLines f
  locals : f.localsMap.Fits frameHeader f.frameMembers (m.locals.map variableName)
  arguments : f.receiver :: f.parameters = (("this", .object f.cls) :: m.formals.map variableName).map declaratorOf ∧
    GcMap.Describes f.argumentsMap (("this", .object f.cls) :: m.formals.map variableName)

theorem Defines.mapsVariables {c : Name} {m : Method} {f : Function} (h : Defines c m f) : MapsVariables m f := by
  have hvariables : ∀ ds : List Declaration, (ds.map Declaration.storage).map Declarator.ofVariable =
      (ds.map variableName).map declaratorOf := fun ds => by
    rw [List.map_map, List.map_map]
    rfl
  have hmap : ∀ ds : List Declaration, gcMapOf (ds.map (·.ty.val.storage)) =
      (ds.map variableName).map (·.2.isReference) := fun ds => by
    rw [gcMapOf, List.map_map, List.map_map]
    rfl
  refine ⟨?_, ?_, ?_⟩
  · rw [functionLines_eq, frameLines_eq]
    exact ⟨⟨_, by simp only [List.append_assoc]; rfl⟩, ⟨f.maps.map (·.text ++ ";") ++ [""] ++
      ["struct " ++ packed ++ " " ++ f.frameTag, "\x7b"], _, by simp only [List.append_assoc]; rfl⟩, by simp⟩
  · refine GcMap.fits_of_eq ?_ (h.localsMap.trans (hmap m.locals))
    rw [Function.frameMembers, h.locals, hvariables]
    rfl
  · constructor
    · rw [Function.parameters, h.formals, hvariables]
      rfl
    · have harguments : f.argumentsMap =
          ((("this", .object f.cls) :: m.formals.map variableName : List (String × Ty))).map (·.2.isReference) := by
        rw [h.argumentsMap, List.map_cons, ← hmap]
        rfl
      exact harguments ▸ describes_map _

end CUnit

open CUnit

theorem Program.Declarations.exists_mapsObjects {p : Program} {t : ClassTable} (h : p.Declarations t) {c : Name}
    {line : List ClassDecl} (hl : p.LineOf t c line) :
    ∃ xs, MapsObjects t c (shapeOf c line).1 (shapeOf c line).2 xs := by
  let xs : List (Name × Ty) := (layoutOf line).keys.filterMap fun f => (t.resolveField c f).map (f, ·)
  have hmem : ∀ f ty, (f, ty) ∈ xs ↔ t.resolveField c f = some ty := fun f ty => by
    simp only [xs, List.mem_filterMap, Option.map_eq_some_iff, Prod.mk.injEq]
    constructor
    · rintro ⟨_, -, _, hty, rfl, rfl⟩
      exact hty
    · exact fun hty => ⟨f, (h.mem_names_iff hl).2 ⟨ty, hty⟩, ty, hty, rfl, rfl⟩
  have hfields : (layoutOf line).entries = xs.map fun x => (x.1, x.2.storage) := by
    have hget : ∀ e ∈ (layoutOf line).entries, (t.resolveField c e.1).map (fun ty => (e.1, ty.storage)) = some e :=
      fun e he => by
        have hfield := (h.get?_layoutOf hl e.1).symm.trans (Table.get?_eq_some_iff.2 he)
        obtain ⟨ty, hty, hstorage⟩ := Option.map_eq_some_iff.1 hfield
        rw [hty, Option.map_some, hstorage]
    rw [List.map_filterMap, Table.keys, List.filterMap_map]
    simp only [Function.comp_def, Option.map_map]
    exact ((List.filterMap_congr hget).trans List.filterMap_some).symm
  refine ⟨xs, ⟨?_, ?_⟩, ?_, hmem, GcMap.fits_of_eq ?_ ?_⟩
  · exact ⟨_, _, (layoutLines_eq _).symm⟩
  · simp [vtableLines]
  · have hnames : xs.map Prod.fst = (layoutOf line).keys := by
      rw [Table.keys, hfields, List.map_map]
      rfl
    exact hnames ▸ (layoutOf line).nodup_keys
  · have hmembers : (xs.map fun x => (x.1, x.2.storage)).map Declarator.ofVariable =
        (xs.map fieldName).map declaratorOf := by
      rw [List.map_map, List.map_map]
      rfl
    rw [Layout.members, shapeOf, hfields, hmembers]
    rfl
  · rw [shapeOf, hfields, gcMapOf, List.map_map, List.map_map, List.map_map]
    rfl

/-- **The maps of the collector describe exactly what is emitted.**  Whatever the program, once it has been elaborated the
map of each class has a bit for each member of the class's structure behind the header, those of each function have one for
each local in the frame, and for the object and each formal, all in the order of the declarations.  A bit is set just where
the program gives the variable an array or a class for its type; of a field, the nearest class does.  So the collector, which
goes through packed structures by these bits, comes to the members that are pointers at the bytes where they begin, and ends
where the structure ends, whatever integers and pointers take. -/
theorem collector_maps_exact (p : Program) (dump : Dump) (e : Elaborated) (h : (p.elaborate dump).result = .ok e) :
    ∃ u, (lowerProgram e.program).result = .ok u ∧
      (∀ c ∈ e.program.classes, ∃ l v xs, u.layout? c.name.val = some l ∧ u.vtable? c.name.val = some v ∧
        MapsObjects e.classes c.name.val l v xs) ∧
      (∀ c ∈ e.program.classes, ∀ m ∈ c.methods, ∃ f ∈ u.functions, f.cls = c.name.val ∧ f.name = m.name.val) ∧
      ∀ f ∈ u.functions, ∃ c ∈ e.program.classes, ∃ m ∈ c.methods, f.cls = c.name.val ∧ f.name = m.name.val ∧
        MapsVariables m f := by
  obtain ⟨hsound, -⟩ := elaborate_sound h
  obtain ⟨u, hu⟩ := lowerProgram_total hsound
  obtain ⟨-, -, hshapes⟩ := hsound.declarations.shapes_of_lowerProgram hu
  refine ⟨u, hu, fun c hc => ?_, fun c hc m hm => ?_, fun f hf => ?_⟩
  · obtain ⟨line, hl, hlayout, hvtable⟩ := hshapes c hc
    obtain ⟨xs, hxs⟩ := hsound.declarations.exists_mapsObjects hl
    exact ⟨_, _, xs, hlayout, hvtable, hxs⟩
  · obtain ⟨f, hf, hdefine⟩ := exists_function_of_mem hu hc hm
    exact ⟨f, hf, hdefine.cls, hdefine.name⟩
  · obtain ⟨c, hc, m, hm, hdefine⟩ := (functions_of_lowerProgram hu).1 f hf
    exact ⟨c, hc, m, hm, hdefine.cls, hdefine.name, hdefine.mapsVariables⟩

/-! ## A field declared again -/

namespace Sample

/-- A class `B` that makes an array of the first field of `A`, and has a method with formals and locals of all kinds. -/
def collected : Program :=
  ⟨⟨name "Main", name "args", .print (.literal mark 0)⟩,
    [⟨name "A", none, [declare "x" .int, declare "y" .boolean, declare "next" (.object "A")], []⟩,
      ⟨name "B", some (name "A"), [declare "x" .intArray],
        [⟨name "m", ⟨.int, mark.span⟩, [declare "b" .boolean, declare "a" (.object "A")],
          [declare "i" .int, declare "k" .intArray, declare "o" (.object "B")], [], .literal mark 1⟩]⟩]⟩

end Sample

theorem collector_maps_exact_on_collected : ∃ e u l v xs f m, (Sample.collected.elaborate ⟨false, false⟩).result = .ok e ∧
    (lowerProgram e.program).result = .ok u ∧ u.layout? "B" = some l ∧ u.vtable? "B" = some v ∧
    MapsObjects e.classes "B" l v xs ∧ GcMap.text v.gcMap = "101" ∧ f ∈ u.functions ∧ MapsVariables m f ∧
    GcMap.text f.argumentsMap = "101" ∧ GcMap.text f.localsMap = "011" ∧
    collect ⟨4, 8⟩ 24 (GcMap.text v.gcMap).toList = ([24, 36], 44) := by
  obtain ⟨u, hu, hclasses, -, hfunctions⟩ := collector_maps_exact Sample.collected ⟨false, false⟩ _ rfl
  obtain ⟨l, v, xs, hl, hv, hobjects⟩ := hclasses _ (List.mem_of_getElem? (i := 1) rfl)
  cases hu
  cases hl
  cases hv
  obtain ⟨c, hc, m, hm, -, -, hvariables⟩ := hfunctions _ List.mem_cons_self
  exact ⟨_, _, _, _, xs, _, m, rfl, rfl, rfl, rfl, hobjects, by decide, List.mem_cons_self, hvariables, by decide,
    by decide, by decide⟩

end MiniJava
