import MiniJava.Proofs.Assembly.Lookup
import MiniJava.Proofs.Inheritance.Accesses
import MiniJava.Proofs.Inheritance.Layouts
/-!
# Which cell a field's name stands for

A class may declare again a field that it inherits.  On the machine an object has a cell for each class that declares the
field, and code takes that of the nearest class from its own upwards.  In C the object has one member of the name, which
code of every class takes.

Code of two classes therefore finds the same cell just where no class that declares the field is an ancestor of one of
them alone (`cells_agree_where_not_redeclared`), and the same member in any case: at the same place of the layout, and in
the same bytes as long as no field up to that one is declared again with another width.
-/
namespace MiniJava

open Assembly CUnit

/-- **What code of the class `c` finds under the name `f` in an object of the class `d`**: on the machine the cell of the
class `a`, and no other, and in C the member of that name. -/
structure Program.FindsField (t : ClassTable) (classes : List ClassListing) (u : CUnit) (d c f a : Name) : Prop where
  cell : ∀ b, Locates classes (·.HasField f) c b ↔ b = a
  type : ∃ ty, t.ownField? a f = some ty ∧ t.resolveField c f = some ty
  place : ∃ s o, u.layout? c = some s ∧ u.layout? d = some o ∧ f ∈ s.names ∧ o.names.idxOf f = s.names.idxOf f ∧
    ((∀ g ∈ s.names.take (s.names.idxOf f + 1), t.KeepsWidth d c g) → ∀ z, ∃ m, s.Reaches o z f m)

namespace Program.Declarations

variable {p : Program} {t : ClassTable} {classes : List ClassListing} {u : CUnit}

theorem mem_names_iff (h : p.Declarations t) {c f : Name} {line : List ClassDecl} (hl : p.LineOf t c line) :
    f ∈ (shapeOf c line).1.names ↔ ∃ ty, t.resolveField c f = some ty := by
  have hkeys : (shapeOf c line).1.names = (layoutOf line).keys := rfl
  rw [hkeys, Table.mem_keys_iff, h.get?_layoutOf hl]
  simp only [Option.map_eq_some_iff]
  exact ⟨fun ⟨_, ty, hty, _⟩ => ⟨ty, hty⟩, fun ⟨ty, hty⟩ => ⟨_, ty, hty, rfl⟩⟩

theorem exists_findsField (h : p.Declarations t) (hk : List.Forall₂ Outlines p.classes classes)
    (hu : (CUnit.lowerProgram p).result = .ok u) {d c : ClassDecl} (hd : d ∈ p.classes) (hc : c ∈ p.classes)
    (ha : c.name.val ∈ t.ancestors d.name.val) {f : Name} {ty : Ty} (hf : t.resolveField c.name.val f = some ty) :
    ∃ a, Program.FindsField t classes u d.name.val c.name.val f a ∧
      FirstWith (fun b => (t.ownField? b f).isSome) (t.ancestors c.name.val) a := by
  obtain ⟨-, -, hshapes⟩ := h.shapes_of_lowerProgram hu
  obtain ⟨line, hl, hlayout, -⟩ := hshapes d hd
  obtain ⟨line', hl', hlayout', -⟩ := hshapes c hc
  obtain ⟨a, hfirst, hown⟩ := ClassTable.resolveField_eq_some_iff.1 hf
  have hnames : (shapeOf c.name.val line').1.names <+: (shapeOf d.name.val line).1.names :=
    names_begin (h.lineOf_begins hd ha hl hl')
  have hmem := (h.mem_names_iff hl').2 ⟨ty, hf⟩
  refine ⟨a, ⟨fun b => ?_, ⟨ty, hown, hf⟩, _, _, hlayout', hlayout, hmem, Layout.idxOf_eq_of_begins hnames hmem, ?_⟩, hfirst⟩
  · rw [locates_field_iff h hk hc]
    exact ⟨fun hb => hb.unique hfirst, fun hb => hb ▸ hfirst⟩
  · intro hkeeps z
    have hlt := List.idxOf_lt_length_of_mem hmem
    have hle : (shapeOf c.name.val line').1.names.idxOf f + 1 ≤ (shapeOf c.name.val line').1.fields.length := by
      rwa [Layout.names, List.length_map] at hlt
    have hin : f ∈ (shapeOf c.name.val line').1.names.take ((shapeOf c.name.val line').1.names.idxOf f + 1) := by
      refine List.mem_of_getElem? (i := (shapeOf c.name.val line').1.names.idxOf f) ?_
      rw [List.getElem?_take_of_lt (Nat.lt_succ_self _)]
      exact List.getElem?_eq_some_iff.2 ⟨hlt, List.getElem_idxOf hlt⟩
    exact reaches_of_widths hnames (h.widths_take_eq hl hl' hnames hle hkeeps) z hin

end Program.Declarations

/-- **Two classes in the line of a third find one cell just if no class with the field is an ancestor of one of them
alone.** -/
theorem Program.Declarations.cell_eq_iff {p : Program} {t : ClassTable} (h : p.Declarations t) {d : ClassDecl}
    (hd : d ∈ p.classes) {c₁ c₂ a₁ a₂ : Name} {P : Name → Prop} (h₁ : c₁ ∈ t.ancestors d.name.val)
    (h₂ : c₂ ∈ t.ancestors d.name.val) (ha₁ : FirstWith P (t.ancestors c₁) a₁) (ha₂ : FirstWith P (t.ancestors c₂) a₂) :
    a₁ = a₂ ↔ ∀ b, P b → (b ∈ t.ancestors c₁ ↔ b ∈ t.ancestors c₂) := by
  obtain ⟨⟨e₁, he₁, rfl⟩, hsuffix₁⟩ := h.ancestors_suffix hd h₁
  obtain ⟨⟨e₂, he₂, rfl⟩, hsuffix₂⟩ := h.ancestors_suffix hd h₂
  rcases List.suffix_or_suffix_of_suffix hsuffix₁ hsuffix₂ with hle | hle
  · rw [eq_comm, ha₂.eq_iff_of_suffix (h.nodup_ancestors he₂) hle ha₁]
    exact forall_congr' fun b => imp_congr_right fun _ => Iff.comm
  · exact ha₁.eq_iff_of_suffix (h.nodup_ancestors he₁) hle ha₂

/-- What the listing `l` and the function `g` of a method of the class `c` read and write in objects. -/
structure Method.AccessesAlike (t : ClassTable) (c : Name) (m : Method) (l : MethodListing) (g : Function) : Prop where
  listing : AccessesIn c l.code m.fields
  function : g.members = m.fields.map Prod.fst
  fields : ∀ f ty, (f, ty) ∈ m.fields → t.resolveField c f = some ty

theorem exists_accessesAlike {e : Elaborated} (h : e.Sound) {main : Name} {code : List Instr} {classes : List ClassListing}
    (hls : (Assembly.lowerProgram e.program).result = .ok (.main main code :: classes.map .cls)) {u : CUnit}
    (hu : (CUnit.lowerProgram e.program).result = .ok u) {c : ClassDecl} (hc : c ∈ e.program.classes) {m : Method}
    (hm : m ∈ c.methods) : ∃ k ∈ classes, ∃ l ∈ k.methods, ∃ g ∈ u.functions, k.name = c.name.val ∧
      l.name = m.name.val ∧ g.cls = c.name.val ∧ g.name = m.name.val ∧ m.AccessesAlike e.classes c.name.val l g := by
  obtain ⟨_, _, _, _, classes', -, -, hclasses, heq⟩ := Assembly.lowerProgram_sound hls
  have hinjective : Function.Injective Listing.cls := fun _ _ h => Listing.cls.inj h
  cases hinjective.list_map (List.cons.inj heq).2
  obtain ⟨_, functions, -, -, -, hfunctions, hflat, -⟩ := CUnit.lowerProgram_sound hu
  have hmarked := h.marked.methods c hc m hm
  obtain ⟨k, hk, hkname, hlists⟩ := forall₂_mem_left hclasses c hc
  obtain ⟨l, hl, hlist⟩ := forall₂_mem_left hlists m hm
  obtain ⟨fs, hfs, hdefines⟩ := forall₂_mem_left hfunctions c hc
  obtain ⟨g, hg, hdefine⟩ := forall₂_mem_left hdefines m hm
  obtain ⟨n, n', hcode⟩ := hlist.code
  refine ⟨k, hk, l, hl, g, hflat ▸ List.mem_flatten.2 ⟨fs, hfs, hg⟩, hkname, hlist.name, hdefine.cls, hdefine.name, ?_⟩
  exact ⟨Frame.lowerBody_accesses hmarked hcode, accesses_of_defines hmarked hdefine, fun _ _ => hmarked.resolveField⟩

/-- **Where no class between them declares a field again, methods of two classes find one cell of an object in both kinds
of code.**  Whatever the program, once it has been elaborated every method has a listing and a function that read and write
the fields that the method names, in the same order.  In an object of the class `d`, methods of two classes in the line of
`d` that name the same field find one member in C.  On the machine they find one cell just if each class that declares the
field is an ancestor of both or of neither. -/
theorem cells_agree_where_not_redeclared (p : Program) (dump : Dump) (e : Elaborated)
    (h : (p.elaborate dump).result = .ok e) : ∃ code classes u,
      (Assembly.lowerProgram e.program).result = .ok (.main e.program.main.name.val code :: classes.map .cls) ∧
      (CUnit.lowerProgram e.program).result = .ok u ∧
      (∀ c ∈ e.program.classes, ∀ m ∈ c.methods, ∃ k ∈ classes, ∃ l ∈ k.methods, ∃ g ∈ u.functions,
        k.name = c.name.val ∧ l.name = m.name.val ∧ g.cls = c.name.val ∧ g.name = m.name.val ∧
          m.AccessesAlike e.classes c.name.val l g) ∧
      ∀ d ∈ e.program.classes, ∀ c₁ ∈ e.program.classes, ∀ c₂ ∈ e.program.classes,
        c₁.name.val ∈ e.classes.ancestors d.name.val → c₂.name.val ∈ e.classes.ancestors d.name.val →
        ∀ m₁ ∈ c₁.methods, ∀ m₂ ∈ c₂.methods, ∀ f ∈ m₁.fields.map Prod.fst, f ∈ m₂.fields.map Prod.fst → ∃ a₁ a₂,
          Program.FindsField e.classes classes u d.name.val c₁.name.val f a₁ ∧
          Program.FindsField e.classes classes u d.name.val c₂.name.val f a₂ ∧
          (a₁ = a₂ ↔ ∀ b, (e.classes.ownField? b f).isSome →
            (b ∈ e.classes.ancestors c₁.name.val ↔ b ∈ e.classes.ancestors c₂.name.val)) := by
  obtain ⟨hsound, -⟩ := elaborate_sound h
  obtain ⟨ls, hls⟩ := Assembly.lowerProgram_total hsound
  obtain ⟨u, hu⟩ := CUnit.lowerProgram_total hsound
  obtain ⟨_, code, _, _, classes, -, -, -, rfl⟩ := Assembly.lowerProgram_sound hls
  have hk := lowerProgram_outlines hls
  have hdecl := hsound.declarations
  refine ⟨code, classes, u, hls, hu, fun c hc m hm => exists_accessesAlike hsound hls hu hc hm, ?_⟩
  intro d hd c₁ hc₁ c₂ hc₂ h₁ h₂ m₁ hm₁ m₂ hm₂ f hf₁ hf₂
  obtain ⟨⟨_, ty₁⟩, hmem₁, rfl⟩ := List.mem_map.1 hf₁
  obtain ⟨⟨_, ty₂⟩, hmem₂, rfl⟩ := List.mem_map.1 hf₂
  have hr₁ := (hsound.marked.methods c₁ hc₁ m₁ hm₁).resolveField hmem₁
  have hr₂ := (hsound.marked.methods c₂ hc₂ m₂ hm₂).resolveField hmem₂
  obtain ⟨a₁, hfinds₁, hfirst₁⟩ := hdecl.exists_findsField hk hu hd hc₁ h₁ hr₁
  obtain ⟨a₂, hfinds₂, hfirst₂⟩ := hdecl.exists_findsField hk hu hd hc₂ h₂ hr₂
  exact ⟨a₁, a₂, hfinds₁, hfinds₂, hdecl.cell_eq_iff hd h₁ h₂ hfirst₁ hfirst₂⟩

/-! ## Fields declared again -/

namespace Sample

/-- A field of the class `A` that `C` declares again and `B`, between them, does not.  Each class has a method that reads
the field. -/
def redeclaring : Program :=
  ⟨⟨name "Main", name "args", .print (.literal mark 0)⟩,
    [⟨name "A", none, [declare "x" .int], [⟨name "first", ⟨.int, mark.span⟩, [], [], [], read "x"⟩]⟩,
      ⟨name "B", some (name "A"), [], [⟨name "second", ⟨.int, mark.span⟩, [], [], [], read "x"⟩]⟩,
      ⟨name "C", some (name "B"), [declare "x" .int], [⟨name "third", ⟨.int, mark.span⟩, [], [], [], read "x"⟩]⟩]⟩

end Sample

/-- The methods of `A` and of `B` find one cell of a `C`. -/
theorem cells_agree_on_redeclaring : ∃ e classes u a, (Sample.redeclaring.elaborate ⟨false, false⟩).result = .ok e ∧
    Program.FindsField e.classes classes u "C" "A" "x" a ∧ Program.FindsField e.classes classes u "C" "B" "x" a := by
  obtain ⟨_, classes, u, -, -, -, hall⟩ := cells_agree_where_not_redeclared Sample.redeclaring ⟨false, false⟩ _ rfl
  obtain ⟨a₁, a₂, h₁, h₂, hsame⟩ := hall _ (List.mem_of_getElem? (i := 2) rfl) _ (List.mem_of_getElem? (i := 0) rfl)
    _ (List.mem_of_getElem? (i := 1) rfl) (by decide) (by decide) _ List.mem_cons_self _ List.mem_cons_self "x"
    (by decide) (by decide)
  have heq : a₁ = a₂ := by
    refine hsame.2 fun b hb => ?_
    have hne : b ≠ "B" := by
      rintro rfl
      exact absurd hb (by decide)
    show b ∈ ["A"] ↔ b ∈ ["B", "A"]
    rw [List.mem_cons, List.mem_cons, or_iff_right hne, List.mem_cons]
  exact ⟨_, classes, u, a₁, rfl, h₁, heq ▸ h₂⟩

/-- The methods of `A` and of `C` find two, and in C one member of the name. -/
theorem cells_differ_on_redeclaring : ∃ e code classes u, (Sample.redeclaring.elaborate ⟨false, false⟩).result = .ok e ∧
    (Assembly.lowerProgram e.program).result = .ok (.main e.program.main.name.val code :: classes.map .cls) ∧
    (CUnit.lowerProgram e.program).result = .ok u ∧ "A" ∈ e.classes.ancestors "C" ∧
    (∀ c ∈ ["A", "C"], ∃ k ∈ classes, ∃ l ∈ k.methods, ∃ g ∈ u.functions, k.name = c ∧ g.cls = c ∧ l.name = g.name ∧
      fieldRefs l.code = [(c, "x", .int)] ∧ g.members = ["x"]) ∧
    (∃ a₁ a₂, (∀ b, Locates classes (·.HasField "x") "A" b ↔ b = a₁) ∧
      (∀ b, Locates classes (·.HasField "x") "C" b ↔ b = a₂) ∧ a₁ ≠ a₂) ∧
    ∃ s o, u.layout? "A" = some s ∧ u.layout? "C" = some o ∧ ∀ z, s.member? z "x" = o.member? z "x" := by
  have he : ∃ e, (Sample.redeclaring.elaborate ⟨false, false⟩).result = .ok e := ⟨_, rfl⟩
  obtain ⟨e, he⟩ := he
  obtain ⟨hsound, -⟩ := elaborate_sound he
  obtain ⟨ls, hls⟩ := Assembly.lowerProgram_total hsound
  obtain ⟨u, hu⟩ := CUnit.lowerProgram_total hsound
  obtain ⟨_, code, _, _, classes, -, -, -, rfl⟩ := Assembly.lowerProgram_sound hls
  have hk := lowerProgram_outlines hls
  have hdecl := hsound.declarations
  have hreads : ∀ c ∈ e.program.classes, ∀ m ∈ c.methods, m.fields = [("x", .int)] → ∃ k ∈ classes, ∃ l ∈ k.methods,
      ∃ g ∈ u.functions, k.name = c.name.val ∧ g.cls = c.name.val ∧ l.name = g.name ∧
        fieldRefs l.code = [(c.name.val, "x", .int)] ∧ g.members = ["x"] := by
    intro c hc m hm hfields
    obtain ⟨k, hk, l, hl, g, hg, hkname, hlname, hgcls, hgname, hsame⟩ := exists_accessesAlike hsound hls hu hc hm
    refine ⟨k, hk, l, hl, g, hg, hkname, hgcls, hlname.trans hgname.symm, ?_, ?_⟩
    · rw [hsame.listing, hfields]
      rfl
    · rw [hsame.function, hfields]
      rfl
  cases he
  refine ⟨_, code, classes, u, rfl, hls, hu, by decide, ?_, ?_, ?_⟩
  · refine List.forall_mem_cons.2 ⟨?_, List.forall_mem_singleton.2 ?_⟩
    · exact hreads _ (List.mem_of_getElem? (i := 0) rfl) _ List.mem_cons_self rfl
    · exact hreads _ (List.mem_of_getElem? (i := 2) rfl) _ List.mem_cons_self rfl
  · obtain ⟨a₁, hfinds₁, hfirst₁⟩ := hdecl.exists_findsField hk hu (List.mem_of_getElem? (i := 2) rfl)
      (List.mem_of_getElem? (i := 0) rfl) (by decide) (f := "x") (show _ = some Ty.int from rfl)
    obtain ⟨a₂, hfinds₂, hfirst₂⟩ := hdecl.exists_findsField hk hu (List.mem_of_getElem? (i := 2) rfl)
      (List.mem_of_getElem? (i := 2) rfl) (by decide) (f := "x") (show _ = some Ty.int from rfl)
    refine ⟨a₁, a₂, hfinds₁.cell, hfinds₂.cell, fun heq => ?_⟩
    have hboth := (hdecl.cell_eq_iff (List.mem_of_getElem? (i := 2) rfl) (by decide) (by decide) hfirst₁ hfirst₂).1 heq
    exact absurd ((hboth "C" (by decide)).2 (by decide)) (by decide)
  · cases hu
    exact ⟨_, _, rfl, rfl, fun z => rfl⟩

end MiniJava
