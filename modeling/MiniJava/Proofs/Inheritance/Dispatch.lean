import MiniJava.Proofs.Assembly.Descriptors
import MiniJava.Proofs.Assembly.Lookup
import MiniJava.Proofs.CUnit.Objects
import MiniJava.Proofs.Inheritance.Views
/-!
# Which method a call runs

In an object of a descendant class the machine runs the nearest method that has the name and the very descriptor that the
call was emitted with.  C goes by the name alone: it takes the entry at the method's place in the virtual table, which is
filled by the nearest class that declares a method of the name, with that method's types.

A method may be declared again with other types.  Both run the same method just where the nearest one keeps the descriptor
(`dispatch_agrees_where_descriptor_kept`), and then the entry has the types that the call expects.
-/
namespace MiniJava

open Assembly CUnit

/-! ## Places in virtual tables -/

namespace CUnit

/-- Where the entry of a method stands, or the length of the table if it has none. -/
def Vtable.position (v : Vtable) (m : Name) : Nat := (v.slots.map (·.method)).idxOf m

end CUnit

theorem getElem?_idxOf_eq_valueOf? {α β : Type} [DecidableEq α] {k : α} : ∀ {es : List (α × β)},
    (es.map Prod.snd)[(es.map Prod.fst).idxOf k]? = valueOf? k es
  | [] => rfl
  | e :: es => by
    rw [List.map_cons, List.map_cons, List.idxOf_cons, valueOf?]
    by_cases h : e.1 = k
    · simp [h]
    · rw [if_neg h, ← getElem?_idxOf_eq_valueOf?, cond_eq_ite, if_neg (by simpa using h), List.getElem?_cons_succ]

namespace Program.Declarations

variable {p : Program} {t : ClassTable} {c a m : Name} {line line' : List ClassDecl}

theorem methods_shapeOf (h : p.Declarations t) (hl : p.LineOf t c line) :
    (shapeOf c line).2.slots.map (·.method) = (slotsOf line).keys := by
  rw [shapeOf, Table.values, List.map_map, Table.keys]
  exact List.map_congr_left fun e he => h.method_of_mem_slotsOf hl he

/-- The methods of an ancestor's table come first. -/
theorem keys_slotsOf_begin (hbegins : line' <+: line) : (slotsOf line').keys <+: (slotsOf line).keys := by
  obtain ⟨rest, rfl⟩ := hbegins
  rw [CUnit.slotsOf, CUnit.slotsOf, List.flatMap_append]
  exact Table.keys_ofList_append _ _

/-- **In the tables of a class and its descendants a method has one place.**  The entry there is that of the method. -/
theorem getElem?_position (h : p.Declarations t) (hl' : p.LineOf t a line') (hbegins : line' <+: line)
    (hm : m ∈ (slotsOf line').keys) :
    (shapeOf c line).2.slots[(shapeOf a line').2.position m]? = (slotsOf line).get? m := by
  have hidx := Layout.idxOf_eq_of_begins (keys_slotsOf_begin hbegins) hm
  rw [Vtable.position, h.methods_shapeOf hl', ← hidx]
  exact getElem?_idxOf_eq_valueOf?

/-- The types in a method's signature are those of declared classes, so their names are as good. -/
theorem readable_of_ownMethod? (h : p.Declarations t) (hnames : ∀ c ∈ p.classes, ';' ∉ c.name.val.toList)
    {sig : Signature} (hsig : t.ownMethod? a m = some sig) : ∀ s ∈ sig.storages.2 :: sig.storages.1, s.Readable := by
  have hdeclared : ∀ {ty : Ty}, t.Declares ty → ty.storage.Readable := fun {ty} hty c hc => by
    cases hty with
    | object hty =>
      cases hc
      obtain ⟨d, hd, rfl⟩ := h.isType_iff.1 hty
      exact hnames d hd
    | _ => cases hc
  obtain ⟨d, hd, hm⟩ := h.isSome_ownMethod?_iff.1 (Option.isSome_iff_exists.2 ⟨sig, hsig⟩)
  obtain ⟨rfl, -⟩ := hm
  rw [h.ownMethod?_eq hd] at hsig
  obtain ⟨method, hmethod, heq⟩ := List.mem_map.1 (mem_of_valueOf?_eq_some hsig)
  cases heq
  obtain ⟨hreturns, hformals⟩ := (h.holds d hd).methods method hmethod
  refine List.forall_mem_cons.2 ⟨hdeclared hreturns, fun s hs => ?_⟩
  simp only [Signature.storages, Method.signature, List.map_map, List.mem_map] at hs
  obtain ⟨formal, hformal, rfl⟩ := hs
  exact hdeclared (hformals formal hformal)

/-- **The nearest method with a descriptor is the nearest of all just if that one has the descriptor.** -/
theorem firstWith_eq_iff (h : p.Declarations t) {d : Name} {sig : Signature} {descriptor : String} {i ran : Name}
    (hr : t.resolveMethod d m = some sig) (hi : p.NearestWith t d m i)
    (hran : FirstWith (DeclaresAs t m descriptor) (t.ancestors d) ran) :
    ran = i ↔ descriptors sig.storages.1 sig.storages.2 = descriptor := by
  have hown := h.ownMethod?_of_nearestWith hr hi
  have hfirst : FirstWith (fun b => (t.ownMethod? b m).isSome) (t.ancestors d) i :=
    FirstWith.congr (fun _ _ => h.isSome_ownMethod?_iff.symm) hi
  have hdeclares : ∀ b, DeclaresAs t m descriptor b → (t.ownMethod? b m).isSome :=
    fun b ⟨sig, hsig, _⟩ => Option.isSome_iff_exists.2 ⟨sig, hsig⟩
  rw [hfirst.eq_iff_of_imp hdeclares hran]
  constructor
  · rintro ⟨sig', hsig', heq⟩
    cases hown.symm.trans hsig'
    exact heq
  · exact fun heq => ⟨sig, hown, heq⟩

end Program.Declarations

/-! ## Calls -/

/-- **What becomes of a call through `ref` in objects of the class `d`.**  The machine runs the method of the class `ran`, and
no other.  C expects at the method's place the entry that the table of the class that the call names has there, and finds
the one that stands there in the table of `d`. -/
structure Dispatches (classes : List ClassListing) (u : CUnit) (ref : MethodRef) (d ran : Name) (expected found : Slot) :
    Prop where
  runs : ∀ a, Locates classes (·.HasMethod ref.method (descriptors ref.formals ref.returns)) d a ↔ a = ran
  takes : ∃ vs vd, u.vtable? ref.cls = some vs ∧ u.vtable? d = some vd ∧
    vs.slots[vs.position ref.method]? = some expected ∧ vd.slots[vs.position ref.method]? = some found
  method : expected.method = ref.method ∧ found.method = ref.method
  types : expected.formals = ref.formals ∧ expected.returns = ref.returns

/-- **The machine and C run the same method just where the nearest one has the descriptor of the call.** -/
structure Program.AgreesOn (p : Program) (t : ClassTable) (ref : MethodRef) (d ran : Name) (expected found : Slot) :
    Prop where
  nearest : p.NearestWith t d ref.method found.implementor
  own : ∃ sig, t.ownMethod? found.implementor ref.method = some sig ∧ sig.storages = (found.formals, found.returns)
  same : ran = found.implementor ↔ descriptors found.formals found.returns = descriptors ref.formals ref.returns
  /-- Where names hold no semicolon, this is where the types are the same. -/
  sameTypes : (∀ c ∈ p.classes, ';' ∉ c.name.val.toList) →
    (ran = found.implementor ↔ found.formals = expected.formals ∧ found.returns = expected.returns)

theorem exists_dispatches {p : Program} {t : ClassTable} (h : p.Declarations t) {main : Name} {code : List Instr}
    {classes : List ClassListing} (hls : (Assembly.lowerProgram p).result = .ok (.main main code :: classes.map .cls))
    {u : CUnit} (hu : (CUnit.lowerProgram p).result = .ok u) {s m : Name} {sig : Signature}
    (hr : t.resolveMethod s m = some sig) {d : ClassDecl} (hd : d ∈ p.classes) (hs : s ∈ t.ancestors d.name.val) :
    ∃ ran expected found, let ref : MethodRef := ⟨s, m, sig.formals.map Ty.storage, sig.returns.storage⟩
      Dispatches classes u ref d.name.val ran expected found ∧ p.AgreesOn t ref d.name.val ran expected found := by
  obtain ⟨-, -, hshapes⟩ := h.shapes_of_lowerProgram hu
  obtain ⟨⟨b, hb, rfl⟩, hsuffix⟩ := h.ancestors_suffix hd hs
  obtain ⟨line, hl, -, hvtable⟩ := hshapes d hd
  obtain ⟨line', hl', -, hvtable'⟩ := hshapes b hb
  obtain ⟨sig', hr'⟩ := h.exists_resolveMethod_of_mem_ancestors hd hs hr
  obtain ⟨a', -, hexpected⟩ := h.get?_slotsOf hl' hr
  obtain ⟨i, hi, hfound⟩ := h.get?_slotsOf hl hr'
  have hm : m ∈ (slotsOf line').keys := Table.mem_keys_iff.2 ⟨_, hexpected⟩
  -- the machine finds at least the method that the call was resolved to, since it has the descriptor
  obtain ⟨a, ha, hown⟩ := ClassTable.resolveMethod_eq_some_iff.1 hr
  have hdeclares : DeclaresAs t m (descriptors sig.storages.1 sig.storages.2) a := ⟨sig, hown, rfl⟩
  obtain ⟨ran, hran⟩ := FirstWith.exists_of_mem (hsuffix.subset ha.mem) hdeclares
  have hsame := h.firstWith_eq_iff hr' hi hran
  have hown' := h.ownMethod?_of_nearestWith hr' hi
  refine ⟨ran, sig.slot a' m, sig'.slot i m, ⟨fun a => ?_, ⟨_, _, hvtable', hvtable, ?_, ?_⟩, ⟨rfl, rfl⟩, rfl, rfl⟩, hi,
    ⟨sig', hown', rfl⟩, hsame, fun hnames => ?_⟩
  · rw [locates_method_iff h (lowerProgram_outlines hls) hd]
    exact ⟨fun ha => ha.unique hran, fun ha => ha ▸ hran⟩
  · exact (h.getElem?_position hl' List.prefix_rfl hm).trans hexpected
  · exact (h.getElem?_position hl' (h.lineOf_begins hd hs hl hl') hm).trans hfound
  · exact hsame.trans (descriptors_eq_iff (h.readable_of_ownMethod? hnames hown') (h.readable_of_ownMethod? hnames hown))

/-- **A call runs the same method in both kinds of code where overriding keeps the descriptor.**  Whatever the program, once
it has been elaborated a method that a class has or inherits is called by one reference, with the types that the class
table finds.  In objects of every descendant the machine finds a method to run, and in the descendant's table the method
has an entry at the place that it has in the table of the class, filled by the nearest class that declares the method.
The machine runs that class's method if it has the descriptor of the call, and another class's if it has not. -/
theorem dispatch_agrees_where_descriptor_kept (p : Program) (dump : Dump) (e : Elaborated)
    (h : (p.elaborate dump).result = .ok e) : ∃ interfaces code classes u,
      interfacesOf e.program = .ok interfaces ∧
      (Assembly.lowerProgram e.program).result = .ok (.main e.program.main.name.val code :: classes.map .cls) ∧
      (CUnit.lowerProgram e.program).result = .ok u ∧
      ∀ s m sig, e.classes.resolveMethod s m = some sig → ∃ ref, methodRef interfaces s m = .ok ref ∧
        ∀ d ∈ e.program.classes, s ∈ e.classes.ancestors d.name.val → ∃ ran expected found,
          Dispatches classes u ref d.name.val ran expected found ∧
          e.program.AgreesOn e.classes ref d.name.val ran expected found := by
  obtain ⟨hsound, -⟩ := elaborate_sound h
  obtain ⟨ls, hls⟩ := Assembly.lowerProgram_total hsound
  obtain ⟨u, hu⟩ := CUnit.lowerProgram_total hsound
  obtain ⟨_, code, _, _, classes, -, -, -, rfl⟩ := Assembly.lowerProgram_sound hls
  obtain ⟨interfaces, hi, hknows⟩ := hsound.declarations.interfacesOf_eq_ok
  exact ⟨interfaces, code, classes, u, hi, hls, hu, fun s m sig hr =>
    ⟨_, hknows s m sig hr, fun d hd hs => exists_dispatches hsound.declarations hls hu hr hd hs⟩⟩

/-! ## Methods declared again -/

namespace Sample

/-- A method of the class `A` that `B` declares again with another type held in the same way, and `C` with an array. -/
def overriding : Program :=
  ⟨⟨name "Main", name "args", .print (.literal mark 0)⟩,
    [⟨name "A", none, [], [⟨name "m", ⟨.int, mark.span⟩, [], [], [], .literal mark 1⟩]⟩,
      ⟨name "B", some (name "A"), [], [⟨name "m", ⟨.boolean, mark.span⟩, [], [], [], .bool mark true⟩]⟩,
      ⟨name "C", some (name "B"), [],
        [⟨name "m", ⟨.intArray, mark.span⟩, [], [], [], .newArray mark (.literal mark 3)⟩]⟩]⟩

end Sample

/-- In objects of `B` a call of the method of `A` runs the method of `B` in both kinds of code. -/
theorem dispatch_agrees_on_overriding : ∃ e classes u ref expected found,
    (Sample.overriding.elaborate ⟨false, false⟩).result = .ok e ∧ (CUnit.lowerProgram e.program).result = .ok u ∧
    "A" ∈ e.classes.ancestors "B" ∧ ref = ⟨"A", "m", [], .int⟩ ∧ Dispatches classes u ref "B" "B" expected found ∧
    e.program.AgreesOn e.classes ref "B" "B" expected found ∧ found.implementor = "B" := by
  obtain ⟨interfaces, code, classes, u, hi, -, hu, hall⟩ :=
    dispatch_agrees_where_descriptor_kept Sample.overriding ⟨false, false⟩ _ rfl
  obtain ⟨ref, href, hall⟩ := hall "A" "m" ⟨.int, []⟩ rfl
  obtain ⟨ran, expected, found, hd, hagrees⟩ := hall _ (List.mem_of_getElem? (i := 1) rfl) (by decide)
  cases hi
  cases href
  cases hu
  obtain ⟨vs, vd, hvs, hvd, -, hfound⟩ := hd.takes
  cases hvs
  cases hvd
  cases hfound
  cases hagrees.same.2 (by decide)
  exact ⟨_, classes, _, _, expected, _, rfl, rfl, by decide, rfl, hd, hagrees, rfl⟩

/-- In objects of `C` the machine runs the method of another class, and the entry that C finds has other types than it
expects. -/
theorem dispatch_differs_on_overriding : ∃ e code classes u ran expected found,
    (Sample.overriding.elaborate ⟨false, false⟩).result = .ok e ∧
    (Assembly.lowerProgram e.program).result = .ok (.main e.program.main.name.val code :: classes.map .cls) ∧
    (CUnit.lowerProgram e.program).result = .ok u ∧ e.classes.resolveMethod "A" "m" = some ⟨.int, []⟩ ∧
    "A" ∈ e.classes.ancestors "C" ∧ Dispatches classes u ⟨"A", "m", [], .int⟩ "C" ran expected found ∧
    found.implementor = "C" ∧ ran ≠ "C" ∧ found.returns ≠ expected.returns := by
  have he : ∃ e, (Sample.overriding.elaborate ⟨false, false⟩).result = .ok e := ⟨_, rfl⟩
  obtain ⟨e, he⟩ := he
  obtain ⟨hsound, -⟩ := elaborate_sound he
  obtain ⟨ls, hls⟩ := Assembly.lowerProgram_total hsound
  obtain ⟨u, hu⟩ := CUnit.lowerProgram_total hsound
  obtain ⟨_, code, _, _, classes, -, -, -, rfl⟩ := Assembly.lowerProgram_sound hls
  cases he
  obtain ⟨ran, expected, found, hd, hagrees⟩ := exists_dispatches hsound.declarations hls hu (s := "A") (m := "m") rfl
    (List.mem_of_getElem? (i := 2) rfl) (by decide)
  cases hu
  obtain ⟨vs, vd, hvs, hvd, hexpected, hfound⟩ := hd.takes
  cases hvs
  cases hvd
  cases hexpected
  cases hfound
  have hran : ran ≠ "C" := fun heq => absurd (hagrees.same.1 heq) (by decide)
  exact ⟨_, code, classes, _, ran, _, _, rfl, hls, rfl, rfl, by decide, hd, rfl, hran, by decide⟩

end MiniJava
