import MiniJava.Assembly.Lower
import MiniJava.CUnit.Lower
import MiniJava.Proofs.ClassTable.Declarations
/-!
# Members along a line

The class table looks for a member from the class upwards and stops at the first class that declares it.  The code
generators go down the line from the root and let each class replace what the ones before it declared.  Both come to the
declaration that is nearest to the class: for fields in `get?_layoutOf`, for methods in `get?_interfaceOf` and
`get?_slotsOf`.
-/
namespace MiniJava

def ClassDecl.fieldTypes (c : ClassDecl) : List (Name × Ty) := c.fields.map fun d => (d.name.val, d.ty.val)

def ClassDecl.signatures (c : ClassDecl) : List (Name × Signature) := c.methods.map fun m => (m.name.val, m.signature)

/-- The formals and the result of a method as values are held. -/
def Signature.storages (sig : Signature) : List Storage × Storage := (sig.formals.map Ty.storage, sig.returns.storage)

/-- The slot of the method `m` with the given signature, as the class `a` fills it. -/
def Signature.slot (sig : Signature) (a m : Name) : CUnit.Slot := ⟨m, a, sig.returns.storage, sig.formals.map Ty.storage⟩

def Program.DeclaresMethod (p : Program) (c m : Name) : Prop :=
  ∃ d ∈ p.classes, d.name.val = c ∧ m ∈ d.methods.map (·.name.val)

/-- **The class `a` is the nearest to `c`**, among `c` and its ancestors, that declares a method `m`. -/
def Program.NearestWith (p : Program) (t : ClassTable) (c m a : Name) : Prop :=
  ∃ nearer farther, t.ancestors c = nearer ++ a :: farther ∧ p.DeclaresMethod a m ∧
    ∀ b ∈ nearer, ¬ p.DeclaresMethod b m

namespace Program.Declarations

open Assembly (interfaceOf)
open CUnit (layoutOf slotOf slotsOf)

variable {p : Program} {t : ClassTable} {c : Name} {line : List ClassDecl}

/-! ## In the class table -/

theorem exists_entry (h : p.Declarations t) {d : ClassDecl} (hd : d ∈ p.classes) : ∃ e, t.get? d.name.val = some e ∧
    e.fields.entries = d.fieldTypes ∧ e.methods.entries = d.signatures := by
  obtain ⟨e, he, -, hf, hm⟩ := (h.holds d hd).entry
  exact ⟨e, he, hf, hm⟩

theorem fieldTypes_distinct (h : p.Declarations t) {d : ClassDecl} (hd : d ∈ p.classes) :
    (d.fieldTypes.map Prod.fst).Nodup := by
  obtain ⟨e, -, hf, -⟩ := h.exists_entry hd
  exact hf ▸ e.fields.nodup_keys

theorem signatures_distinct (h : p.Declarations t) {d : ClassDecl} (hd : d ∈ p.classes) :
    (d.signatures.map Prod.fst).Nodup := by
  obtain ⟨e, -, -, hm⟩ := h.exists_entry hd
  exact hm ▸ e.methods.nodup_keys

theorem methodNames_distinct (h : p.Declarations t) {d : ClassDecl} (hd : d ∈ p.classes) :
    (d.methods.map (·.name.val)).Nodup := by
  have hsignatures := h.signatures_distinct hd
  rwa [ClassDecl.signatures, List.map_map] at hsignatures

theorem resolveField_eq (h : p.Declarations t) (hl : p.LineOf t c line) (f : Name) :
    t.resolveField c f = line.reverse.findSome? fun d => valueOf? f d.fieldTypes := by
  rw [ClassTable.resolveField, hl.names, List.findSome?_map, ← List.head?_filterMap, ← List.head?_filterMap]
  refine congrArg List.head? (List.filterMap_congr fun d hd => ?_)
  obtain ⟨e, he, hf, -⟩ := h.exists_entry (hl.declared d (List.mem_reverse.1 hd))
  simp only [Function.comp_apply, he, ← hf]
  rfl

theorem resolveMethod_eq (h : p.Declarations t) (hl : p.LineOf t c line) (m : Name) :
    t.resolveMethod c m = line.reverse.findSome? fun d => valueOf? m d.signatures := by
  rw [ClassTable.resolveMethod, hl.names, List.findSome?_map, ← List.head?_filterMap, ← List.head?_filterMap]
  refine congrArg List.head? (List.filterMap_congr fun d hd => ?_)
  obtain ⟨e, he, -, hm⟩ := h.exists_entry (hl.declared d (List.mem_reverse.1 hd))
  simp only [Function.comp_apply, he, ← hm]
  rfl

/-- Only a declared class has a method. -/
theorem exists_class_of_resolveMethod (h : p.Declarations t) {c m : Name} {sig : Signature}
    (hr : t.resolveMethod c m = some sig) : ∃ d ∈ p.classes, d.name.val = c := by
  by_contra hno
  have hentry : t.get? c = none ∨ t.get? c = some ⟨none, .empty, .empty⟩ := by
    by_cases hc : c = p.main.name.val
    · exact .inr (hc ▸ h.mainEntry)
    · refine .inl (Table.get?_eq_none_iff.2 ?_)
      rw [h.keys, List.mem_cons, List.mem_map]
      exact fun hmem => hmem.elim hc hno
  have hparent : t.parentOf c = none := by
    rw [ClassTable.parentOf]
    rcases hentry with he | he <;> rw [he] <;> rfl
  have hancestors : t.ancestors c = [c] := by
    rw [ClassTable.ancestors, show max t.size 1 = max t.size 1 - 1 + 1 by omega, ClassTable.walk, hparent]
  rw [ClassTable.resolveMethod, hancestors] at hr
  rcases hentry with he | he <;> simp [he] at hr

/-! ## In what the code generators make of a line -/

/-- **The field that a layout holds under a name is the nearest one.** -/
theorem get?_layoutOf (h : p.Declarations t) (hl : p.LineOf t c line) (f : Name) :
    (layoutOf line).get? f = (t.resolveField c f).map Ty.storage := by
  have hgroups : (line.flatMap (·.fields)).map Declaration.storage =
      line.flatMap fun d => d.fieldTypes.map fun e => (e.1, e.2.storage) := by
    simp only [List.map_flatMap, ClassDecl.fieldTypes, List.map_map]
    rfl
  have hdistinct : ∀ d ∈ line, ((d.fieldTypes.map fun e => (e.1, e.2.storage)).map Prod.fst).Nodup := fun d hd => by
    rw [List.map_map]
    exact h.fieldTypes_distinct (hl.declared d hd)
  rw [layoutOf, hgroups, Table.get?_ofList_flatMap _ hdistinct, h.resolveField_eq hl, List.map_findSome?]
  simp only [valueOf?_map fun _ => Ty.storage, Function.comp_def]

/-- **The method that an interface holds under a name is the nearest one.** -/
theorem get?_interfaceOf (h : p.Declarations t) (hl : p.LineOf t c line) (m : Name) :
    (interfaceOf line).get? m = (t.resolveMethod c m).map Signature.storages := by
  have hgroups : (line.flatMap (·.methods)).map (fun m => (m.name.val, m.formalStorages, m.returns.val.storage)) =
      line.flatMap fun d => d.signatures.map fun e => (e.1, e.2.storages) := by
    simp only [List.map_flatMap, ClassDecl.signatures, List.map_map, Function.comp_def, Signature.storages,
      Method.signature, Method.formalStorages]
  have hdistinct : ∀ d ∈ line, ((d.signatures.map fun e => (e.1, e.2.storages)).map Prod.fst).Nodup := fun d hd => by
    rw [List.map_map]
    exact h.signatures_distinct (hl.declared d hd)
  rw [interfaceOf, hgroups, Table.get?_ofList_flatMap _ hdistinct, h.resolveMethod_eq hl, List.map_findSome?]
  simp only [valueOf?_map fun _ => Signature.storages, Function.comp_def]

theorem get?_slotsOf_eq (h : p.Declarations t) (hl : p.LineOf t c line) (m : Name) :
    (slotsOf line).get? m = line.reverse.findSome? fun d => (valueOf? m d.signatures).map (·.slot d.name.val m) := by
  have hgroups : ∀ d : ClassDecl, d.methods.map (fun m => (m.name.val, slotOf d m)) =
      d.signatures.map fun e => (e.1, e.2.slot d.name.val e.1) := fun d => by
    simp only [ClassDecl.signatures, List.map_map, Function.comp_def, Signature.slot, slotOf, Method.signature,
      Method.formalStorages]
  have hdistinct : ∀ d ∈ line, ((d.signatures.map fun e => (e.1, e.2.slot d.name.val e.1)).map Prod.fst).Nodup :=
    fun d hd => by
      rw [List.map_map]
      exact h.signatures_distinct (hl.declared d hd)
  simp only [slotsOf, hgroups]
  rw [Table.get?_ofList_flatMap _ hdistinct]
  exact congrArg (List.findSome? · line.reverse)
    (funext fun d => valueOf?_map fun m (sig : Signature) => sig.slot d.name.val m)

theorem declaresMethod_iff (h : p.Declarations t) {d : ClassDecl} (hd : d ∈ p.classes) {m : Name} :
    p.DeclaresMethod d.name.val m ↔ valueOf? m d.signatures ≠ none := by
  rw [Ne, valueOf?_eq_none_iff, not_not, ClassDecl.signatures, List.map_map]
  constructor
  · rintro ⟨d', hd', hname, hm⟩
    cases List.inj_on_of_nodup_map h.class_distinct hd' hd hname
    exact hm
  · exact fun hm => ⟨d, hd, rfl, hm⟩

/-- **The slot that a virtual table holds for a method is filled by the nearest class that declares the method.** -/
theorem get?_slotsOf (h : p.Declarations t) (hl : p.LineOf t c line) {m : Name} {sig : Signature}
    (hr : t.resolveMethod c m = some sig) :
    ∃ a, p.NearestWith t c m a ∧ (slotsOf line).get? m = some (sig.slot a m) := by
  rw [h.resolveMethod_eq hl, List.findSome?_eq_some_iff] at hr
  obtain ⟨nearer, d, farther, hline, hd, hnearer⟩ := hr
  have hmem : ∀ b ∈ nearer ++ d :: farther, b ∈ p.classes := fun b hb =>
    hl.declared b (List.mem_reverse.1 (hline ▸ hb))
  refine ⟨d.name.val, ⟨nearer.map (·.name.val), farther.map (·.name.val), ?_, ?_, ?_⟩, ?_⟩
  · rw [hl.names, hline, List.map_append, List.map_cons]
  · rw [h.declaresMethod_iff (hmem d (List.mem_append_right _ List.mem_cons_self)), hd]
    exact Option.some_ne_none sig
  · intro b hb
    obtain ⟨b, hmemb, rfl⟩ := List.mem_map.1 hb
    rw [h.declaresMethod_iff (hmem b (List.mem_append_left _ hmemb)), hnearer b hmemb]
    exact not_not_intro rfl
  · rw [h.get?_slotsOf_eq hl, List.findSome?_eq_some_iff]
    refine ⟨nearer, d, farther, hline, ?_, fun b hb => ?_⟩
    · rw [hd]
      rfl
    · rw [hnearer b hb]
      rfl

theorem get?_slotsOf_eq_none (h : p.Declarations t) (hl : p.LineOf t c line) {m : Name}
    (hr : t.resolveMethod c m = none) : (slotsOf line).get? m = none := by
  rw [h.resolveMethod_eq hl, List.findSome?_eq_none_iff] at hr
  rw [h.get?_slotsOf_eq hl, List.findSome?_eq_none_iff]
  intro d hd
  rw [hr d hd]
  rfl

end Program.Declarations

end MiniJava
