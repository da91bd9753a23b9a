import MiniJava.Proofs.ClassTable.Members
/-!
# What a frame knows

The frame that a method's code is made in has a slot for each variable of the method (`valueOf?_slotsOf`) and knows each
method that the class table finds, with the same types (`Knows`).  It serves the scope that the method was checked in
(`Frame.Serves`).
-/
namespace MiniJava

namespace Assembly

/-! ## Slots -/

theorem numberFrom_of_nodup : ∀ {xs : List Name} {n : Nat}, xs.Nodup → numberFrom n xs = xs.zipIdx n
  | [], _, _ => rfl
  | x :: xs, n, h => by
    obtain ⟨hx, hxs⟩ := List.nodup_cons.1 h
    rw [numberFrom, if_neg hx, numberFrom_of_nodup hxs, List.zipIdx_cons]

/-- **Each variable of a method has the slot of its place among the declarations.** -/
theorem valueOf?_slotsOf {m : Method} (h : ((m.formals ++ m.locals).map (·.name.val)).Nodup) {x : Name} {n : Nat} :
    valueOf? x (slotsOf m) = some n ↔
      1 ≤ n ∧ ((m.formals ++ m.locals).map (·.name.val))[n - 1]? = some x := by
  rw [slotsOf, numberFrom_of_nodup h]
  have hkeys : ((((m.formals ++ m.locals).map (·.name.val)).zipIdx 1).map Prod.fst).Nodup := by
    rw [List.zipIdx_map_fst]
    exact h
  have hmem : valueOf? x (((m.formals ++ m.locals).map (·.name.val)).zipIdx 1) = some n ↔
      (x, n) ∈ ((m.formals ++ m.locals).map (·.name.val)).zipIdx 1 :=
    ⟨mem_of_valueOf?_eq_some, valueOf?_eq_some_of_mem hkeys⟩
  rw [hmem, List.mem_zipIdx_iff_le_and_getElem?_sub]

theorem exists_valueOf?_slotsOf {m : Method} (h : ((m.formals ++ m.locals).map (·.name.val)).Nodup) {x : Name}
    (hx : x ∈ (m.formals ++ m.locals).map (·.name.val)) : ∃ n, valueOf? x (slotsOf m) = some n := by
  obtain ⟨i, hi⟩ := List.mem_iff_getElem?.1 hx
  exact ⟨i + 1, (valueOf?_slotsOf h).2 ⟨Nat.succ_le_succ (Nat.zero_le i), hi⟩⟩

end Assembly

/-! ## Interfaces -/

/-- How a call names the method that it was resolved to. -/
def Resolution.methodRef (r : Resolution) (method : Name) : Assembly.MethodRef :=
  ⟨r.cls, method, r.formals.map Ty.storage, r.returns.storage⟩

/-- The interfaces have each method that the class table finds, with the same types. -/
def Assembly.Knows (interfaces : Table Name Interface) (t : ClassTable) : Prop := ∀ c m sig,
  t.resolveMethod c m = some sig →
    methodRef interfaces c m = .ok ⟨c, m, sig.formals.map Ty.storage, sig.returns.storage⟩

namespace Assembly

/-- **What the interfaces of a program are**: each class of the index has the one that its line makes. -/
theorem get?_interfacesOf {p : Program} {interfaces : Table Name Interface} (h : interfacesOf p = .ok interfaces)
    {c : Name} {interface : Interface} : interfaces.get? c = some interface ↔
      c ∈ p.classIndex.keys ∧ ∃ line, lineage p.classIndex c = .ok line ∧ interfaceOf line = interface := by
  obtain ⟨es, hes, h⟩ := bind_eq_ok.1 h
  cases pure_eq_ok.1 h
  have hes := mapM_eq_ok.1 hes
  have hkeys : p.classIndex.keys = es.map Prod.fst := by
    rw [← map_eq_of_forall₂ id Prod.fst hes, List.map_id]
    intro c e he
    obtain ⟨line, -, he⟩ := bind_eq_ok.1 he
    rw [← pure_eq_ok.1 he]
    rfl
  rw [Table.get?_eq_some_iff, Table.entries_ofList (hkeys ▸ p.classIndex.nodup_keys)]
  constructor
  · intro hmem
    obtain ⟨c', hc', he⟩ := forall₂_mem_right hes _ hmem
    obtain ⟨line, hline, he⟩ := bind_eq_ok.1 he
    cases pure_eq_ok.1 he
    exact ⟨hc', line, hline, rfl⟩
  · rintro ⟨hc, line, hline, rfl⟩
    obtain ⟨e, hmem, he⟩ := forall₂_mem_left hes c hc
    obtain ⟨line', hline', he⟩ := bind_eq_ok.1 he
    rw [hline] at hline'
    cases hline'
    cases pure_eq_ok.1 he
    exact hmem

end Assembly

namespace Program.Declarations

open Assembly

variable {p : Program} {t : ClassTable}

/-- **The interfaces of a program are those of its classes**, and each holds what the class table finds. -/
theorem interfacesOf_agrees (h : p.Declarations t) : ∃ interfaces, interfacesOf p = .ok interfaces ∧
    ∀ c ∈ p.classes, ∃ interface, interfaces.get? c.name.val = some interface ∧
      ∀ m, interface.get? m = (t.resolveMethod c.name.val m).map Signature.storages := by
  let entry (c : Name) : Except Fault (Name × Interface) := do return (c, interfaceOf (← lineage p.classIndex c))
  have htotal : ∀ c ∈ p.classIndex.keys, ∃ e, entry c = .ok e := fun c hc => by
    obtain ⟨d, hd⟩ := Table.mem_keys_iff.1 hc
    obtain ⟨hmem, rfl⟩ := h.classIndex_eq_some_iff.1 hd
    obtain ⟨line, hline, -⟩ := h.lineage_eq_ok hmem
    exact ⟨_, bind_eq_ok.2 ⟨line, hline, rfl⟩⟩
  obtain ⟨es, hes⟩ := exists_mapM_eq_ok htotal
  have hinterfaces : interfacesOf p = .ok (Table.ofList es) := bind_eq_ok.2 ⟨es, hes, rfl⟩
  refine ⟨Table.ofList es, hinterfaces, fun c hc => ?_⟩
  obtain ⟨line, hline, hl⟩ := h.lineage_eq_ok hc
  have hkey : c.name.val ∈ p.classIndex.keys := Table.mem_keys_iff.2 ⟨c, h.classIndex_eq_some_iff.2 ⟨hc, rfl⟩⟩
  exact ⟨interfaceOf line, (get?_interfacesOf hinterfaces).2 ⟨hkey, line, hline, rfl⟩, h.get?_interfaceOf hl⟩

/-- **The interfaces of a program know its class table.** -/
theorem interfacesOf_eq_ok (h : p.Declarations t) : ∃ interfaces, interfacesOf p = .ok interfaces ∧
    Knows interfaces t := by
  obtain ⟨interfaces, hi, hall⟩ := h.interfacesOf_agrees
  refine ⟨interfaces, hi, fun c m sig hr => ?_⟩
  obtain ⟨d, hd, rfl⟩ := h.exists_class_of_resolveMethod hr
  obtain ⟨interface, hget, hm⟩ := hall d hd
  rw [methodRef, hget]
  simp only [hm, hr, Option.map_some, Signature.storages]

end Program.Declarations

/-! ## Frames and scopes -/

namespace Assembly

/-- **A frame that code can be made in for whatever is well typed in the scope.** -/
structure Frame.Serves (f : Frame) (sc : Scope) : Prop where
  slots : ∀ x ty, sc.locals.get? x = some ty → ∃ n, valueOf? x f.slots = some n
  methods : Knows f.interfaces sc.classes

variable {interfaces : Table Name Interface} {t : ClassTable} {c : Name}

theorem serves_main (hi : Knows interfaces t) : Frame.Serves ⟨interfaces, c, []⟩ t.mainScope where
  slots := fun _ _ h => (by cases h)
  methods := hi

theorem serves_method {m : Method} (hi : Knows interfaces t) (hn : ((m.formals ++ m.locals).map (·.name.val)).Nodup) :
    Frame.Serves ⟨interfaces, c, slotsOf m⟩ (m.scope t c) where
  slots := fun x ty hx => by
    have hkey : x ∈ m.variables.map Prod.fst := Table.mem_keys_ofList.1 (Table.mem_keys_iff.2 ⟨ty, hx⟩)
    rw [Method.variables, List.map_map] at hkey
    exact exists_valueOf?_slotsOf hn hkey
  methods := hi

end Assembly

end MiniJava
