import Mathlib.Algebra.GroupWithZero.Nat
import Mathlib.Data.List.Basic
import Mathlib.Data.List.GetD
import MiniJava.CUnit.Basic
/-!
# Objects in memory

An object is a header and then the fields of its class's layout.  The structures are packed, so that each field begins
where the one before it ends, on every machine whatever its integers and pointers take.  Different fields of a layout
share no byte (`Layout.member?_disjoint`), and layouts that begin alike have their first fields in the same place
(`Layout.member?_eq`).
-/
namespace MiniJava.CUnit

/-- How many bytes an integer and a pointer take. -/
structure Sizes where
  int : Nat
  pointer : Nat

def Sizes.of (z : Sizes) (reference : Bool) : Nat := if reference then z.pointer else z.int

/-- The pointer to the virtual table, what tells arrays from objects, the length of an array, and the pointer that the
collector leaves behind when it moves the object. -/
def Sizes.header (z : Sizes) : Nat := z.pointer + z.int + z.int + z.pointer

/-! ## Members -/

/-- What stands in memory from the beginning of an object on. -/
abbrev Bytes := Nat → UInt8

/-- The bytes of an object that belong to one of its fields. -/
structure Member where
  offset : Nat
  size : Nat
  deriving DecidableEq, Repr

namespace Member

def read (m : Member) (bytes : Bytes) : List UInt8 := (List.range' m.offset m.size).map bytes

def write (m : Member) (v : List UInt8) (bytes : Bytes) : Bytes := fun k =>
  if m.offset ≤ k ∧ k < m.offset + m.size then v.getD (k - m.offset) 0 else bytes k

def Disjoint (m k : Member) : Prop := m.offset + m.size ≤ k.offset ∨ k.offset + k.size ≤ m.offset

theorem read_write (m : Member) {v : List UInt8} (h : v.length = m.size) (bytes : Bytes) : m.read (m.write v bytes) = v := by
  refine List.ext_getElem ?_ fun i hi hv => ?_
  · rw [read, List.length_map, List.length_range', h]
  · have hin : m.offset ≤ m.offset + i ∧ m.offset + i < m.offset + m.size := by omega
    simp only [read, List.getElem_map, List.getElem_range', Nat.one_mul]
    rw [write, if_pos hin, Nat.add_sub_cancel_left, List.getD_eq_getElem _ _ hv]

theorem read_write_of_disjoint {m k : Member} (h : m.Disjoint k) (v : List UInt8) (bytes : Bytes) :
    k.read (m.write v bytes) = k.read bytes := by
  refine List.map_congr_left fun i hi => ?_
  rw [List.mem_range'_1] at hi
  have hout : ¬ (m.offset ≤ i ∧ i < m.offset + m.size) := by
    rcases h with h | h <;> omega
  rw [write, if_neg hout]

end Member

/-! ## Layouts -/

namespace Layout

def names (l : Layout) : List Name := l.fields.map (·.1)

/-- Whether each field is as wide as a pointer, or as an integer. -/
def widths (l : Layout) : List Bool := l.fields.map (·.2.isReference)

/-- Where the field at a position begins. -/
def offset (l : Layout) (z : Sizes) (i : Nat) : Nat := z.header + ((l.widths.take i).map z.of).sum

/-- The member of an object that `this` leads to under the name `f`, if the layout has such a field. -/
def member? (l : Layout) (z : Sizes) (f : Name) : Option Member :=
  let i := l.names.idxOf f
  l.widths[i]?.map fun width => ⟨l.offset z i, z.of width⟩

variable {l k : Layout} {z : Sizes}

theorem member?_eq_some {f : Name} {m : Member} : l.member? z f = some m ↔
    ∃ width, l.widths[l.names.idxOf f]? = some width ∧ m = ⟨l.offset z (l.names.idxOf f), z.of width⟩ := by
  simp only [member?, Option.map_eq_some_iff, @eq_comm Member m]

theorem names_getElem?_of_member? {f : Name} {m : Member} (h : l.member? z f = some m) :
    l.names[l.names.idxOf f]? = some f := by
  obtain ⟨width, hw, -⟩ := member?_eq_some.1 h
  have hlt : l.names.idxOf f < l.names.length := by
    have := (List.getElem?_eq_some_iff.1 hw).1
    rwa [widths, List.length_map, ← List.length_map (·.1)] at this
  exact List.getElem?_eq_some_iff.2 ⟨hlt, List.getElem_idxOf hlt⟩

/-- The field at a position ends before any later one begins. -/
theorem offset_add_le {i j : Nat} (h : i < j) {width : Bool} (hw : l.widths[i]? = some width) :
    l.offset z i + z.of width ≤ l.offset z j := by
  have hsucc : l.offset z i + z.of width = l.offset z (i + 1) := by
    rw [offset, offset, List.take_add_one, hw, Nat.add_assoc]
    simp
  obtain ⟨between, hbetween⟩ : l.widths.take (i + 1) <+: l.widths.take j := List.take_prefix_take_left h
  rw [hsucc, offset, offset, ← hbetween, List.map_append, List.sum_append]
  omega

/-- **Different fields of an object share no byte.** -/
theorem member?_disjoint {f g : Name} (hne : f ≠ g) {m m' : Member} (h : l.member? z f = some m)
    (h' : l.member? z g = some m') : m.Disjoint m' := by
  have hf := names_getElem?_of_member? h
  have hg := names_getElem?_of_member? h'
  obtain ⟨w, hw, rfl⟩ := member?_eq_some.1 h
  obtain ⟨w', hw', rfl⟩ := member?_eq_some.1 h'
  rcases Nat.lt_trichotomy (l.names.idxOf f) (l.names.idxOf g) with hlt | heq | hlt
  · exact .inl (offset_add_le hlt hw)
  · rw [heq, hg] at hf
    exact absurd (Option.some.inj hf).symm hne
  · exact .inr (offset_add_le hlt hw')

/-! ## Layouts that begin alike -/

theorem idxOf_eq_of_begins {ns ms : List Name} (h : ns <+: ms) {f : Name} (hf : f ∈ ns) : ms.idxOf f = ns.idxOf f := by
  obtain ⟨rest, rfl⟩ := h
  exact List.idxOf_append_of_mem hf

theorem offset_eq {n : Nat} (h : l.widths.take n = k.widths.take n) {i : Nat} (hi : i ≤ n) :
    l.offset z i = k.offset z i := by
  have htake : ∀ ws : List Bool, ws.take i = (ws.take n).take i := fun ws => by rw [List.take_take, Nat.min_eq_left hi]
  rw [offset, offset, htake, h, ← htake]

/-- **A field among the first ones of two layouts that begin alike is the same member in both.** -/
theorem member?_eq {n : Nat} (hnames : l.names <+: k.names) (h : l.widths.take n = k.widths.take n) {f : Name}
    (hf : f ∈ l.names.take n) : ∃ m, l.member? z f = some m ∧ k.member? z f = some m := by
  have hmem := List.mem_of_mem_take hf
  have hidx := idxOf_eq_of_begins hnames hmem
  have hlt : l.names.idxOf f < n := by
    rw [idxOf_eq_of_begins (List.take_prefix n l.names) hf]
    exact Nat.lt_of_lt_of_le (List.idxOf_lt_length_of_mem hf) (List.length_take_le n _)
  have hwidth : k.widths[l.names.idxOf f]? = l.widths[l.names.idxOf f]? := by
    rw [← List.getElem?_take_of_lt hlt, ← h, List.getElem?_take_of_lt hlt]
  have hlength : l.names.idxOf f < l.widths.length := by
    have := List.idxOf_lt_length_of_mem hmem
    rwa [names, List.length_map, ← List.length_map (·.2.isReference)] at this
  obtain ⟨width, hw⟩ : ∃ width, l.widths[l.names.idxOf f]? = some width := ⟨_, List.getElem?_eq_getElem hlength⟩
  refine ⟨_, member?_eq_some.2 ⟨width, hw, rfl⟩, member?_eq_some.2 ⟨width, ?_, ?_⟩⟩
  · rw [hidx, hwidth, hw]
  · rw [hidx, offset_eq h (Nat.le_of_lt hlt)]

end Layout

end MiniJava.CUnit
