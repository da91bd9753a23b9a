import MiniJava.Proofs.ClassTable.Line
import MiniJava.Proofs.Typing.Programs
/-!
# What a program's class table holds

A program that has a class table declares its classes under distinct names, derives them from declared classes without a
circle, and finds in the table exactly what each class declares (`Declarations`).  The facts are gathered as the table
is: from registering the names, from validating the hierarchy, and from adding the members, which leaves names and
parents alone (`SameHierarchy`).
-/
namespace MiniJava

namespace ClassTable

/-! ## Registering names -/

theorem register_eq_ok {t u : ClassTable} {c : Located Name} {parent : Option Name} : t.register c parent = .ok u ↔
    c.val ∉ t.classes.keys ∧ u.main = t.main ∧
      u.classes.entries = t.classes.entries ++ [(c.val, ⟨parent, .empty, .empty⟩)] := by
  rw [register]
  constructor
  · intro h
    split at h
    · rename_i classes hput
      cases h
      obtain ⟨hc, he⟩ := Table.putNew?_eq_some_iff.1 hput
      exact ⟨hc, rfl, he⟩
    · cases h
  · rintro ⟨hc, hm, he⟩
    rw [Table.putNew?_eq_some_iff.2 ⟨hc, he⟩]
    simp only [← hm]

/-- What registering a class puts into the table. -/
def registration (c : ClassDecl) : Name × ClassEntry := (c.name.val, ⟨c.parent.map (·.val), .empty, .empty⟩)

theorem registerAll_eq_ok : ∀ {cs : List ClassDecl} {t u : ClassTable},
    cs.foldlM (fun t c => t.register c.name (c.parent.map (·.val))) t = .ok u ↔
      (t.classes.keys ++ cs.map (·.name.val)).Nodup ∧ u.main = t.main ∧
        u.classes.entries = t.classes.entries ++ cs.map registration
  | [], t, u => by
    rw [List.foldlM_nil, pure_eq_ok, List.map_nil, List.map_nil, List.append_nil, List.append_nil]
    constructor
    · rintro rfl
      exact ⟨t.classes.nodup_keys, rfl, rfl⟩
    · rintro ⟨-, hm, he⟩
      rcases t with ⟨classes, main⟩
      rcases u with ⟨classes', main'⟩
      cases hm
      cases Table.ext he
      rfl
  | c :: cs, t, u => by
    rw [List.foldlM_cons, bind_eq_ok]
    simp only [register_eq_ok, registerAll_eq_ok]
    constructor
    · rintro ⟨v, ⟨-, hvm, hv⟩, hn, hu⟩
      have hk : v.classes.keys = t.classes.keys ++ [c.name.val] := by
        simp only [Table.keys, hv, List.map_append, List.map_singleton]
      rw [hk, List.append_assoc] at hn
      rw [hv, List.append_assoc, hvm] at hu
      exact ⟨hn, hu⟩
    · rintro ⟨hn, hum, hu⟩
      have hc : c.name.val ∉ t.classes.keys := fun hm => List.disjoint_of_nodup_append hn hm List.mem_cons_self
      let v : ClassTable := ⟨t.classes.put c.name.val (registration c).2, t.main⟩
      have hv : v.classes.entries = t.classes.entries ++ [registration c] := putEntry_eq_append hc
      have hk : v.classes.keys = t.classes.keys ++ [c.name.val] := by
        simp only [Table.keys, hv, List.map_append, List.map_singleton]
        rfl
      refine ⟨v, ⟨hc, rfl, hv⟩, ?_, hum, ?_⟩
      · rw [hk, List.append_assoc]
        exact hn
      · rw [hu, hv, List.append_assoc]
        rfl

end ClassTable

/-- **The table of the names of a program**: it has the program's classes, under the parents that the program names, and
they have no members yet. -/
structure Program.Names (p : Program) (t : ClassTable) : Prop where
  distinct : (p.main.name.val :: p.classes.map (·.name.val)).Nodup
  main : t.main = some p.main.name.val
  entries : t.classes.entries = (p.main.name.val, ⟨none, .empty, .empty⟩) :: p.classes.map ClassTable.registration

theorem Program.registered_eq_ok {p : Program} {t : ClassTable} : p.registered = .ok t ↔ p.Names t := by
  simp only [registered, ClassTable.registerMain, bind_eq_ok, pure_eq_ok, ClassTable.register_eq_ok,
    ClassTable.registerAll_eq_ok]
  constructor
  · rintro ⟨_, ⟨v, ⟨-, -, hv⟩, rfl⟩, hn, hm, ht⟩
    simp only [Table.keys, hv] at hn
    rw [hv] at ht
    exact ⟨hn, hm, ht⟩
  · rintro ⟨hn, hm, ht⟩
    let v : ClassTable := ⟨Table.empty.put p.main.name.val ⟨none, .empty, .empty⟩, none⟩
    exact ⟨_, ⟨v, ⟨List.not_mem_nil, rfl, rfl⟩, rfl⟩, hn, hm, ht⟩

namespace Program.Names

variable {p : Program} {t : ClassTable}

theorem keys (h : p.Names t) : t.classes.keys = p.main.name.val :: p.classes.map (·.name.val) := by
  rw [Table.keys, h.entries, List.map_cons, List.map_map]
  rfl

theorem get?_main (h : p.Names t) : t.get? p.main.name.val = some ⟨none, .empty, .empty⟩ := by
  refine Table.get?_eq_some_iff.2 ?_
  rw [h.entries]
  exact List.mem_cons_self

theorem get?_of_mem (h : p.Names t) {c : ClassDecl} (hc : c ∈ p.classes) :
    t.get? c.name.val = some (ClassTable.registration c).2 := by
  refine Table.get?_eq_some_iff.2 ?_
  rw [h.entries]
  exact List.mem_cons_of_mem _ (List.mem_map_of_mem hc)

end Program.Names

namespace ClassTable

/-! ## Tables with the same names and parents -/

/-- `u` has the classes of `t` and derives them alike.  Their members may differ. -/
structure SameHierarchy (t u : ClassTable) : Prop where
  keys : u.classes.keys = t.classes.keys
  main : u.main = t.main
  parent : ∀ c, u.parentOf c = t.parentOf c

theorem SameHierarchy.refl (t : ClassTable) : SameHierarchy t t := ⟨rfl, rfl, fun _ => rfl⟩

theorem SameHierarchy.trans {t u v : ClassTable} (h : SameHierarchy t u) (h' : SameHierarchy u v) : SameHierarchy t v :=
  ⟨h'.keys.trans h.keys, h'.main.trans h.main, fun c => (h'.parent c).trans (h.parent c)⟩

theorem isType_iff {t : ClassTable} {c : Name} : t.isType c = true ↔ c ∈ t.classes.keys ∧ t.main ≠ some c := by
  rw [isType, Bool.and_eq_true, contains, Table.contains_iff, bne_iff_ne]

/-- In a table that has the classes of a program, these are the types that are classes. -/
theorem isType_iff_of_keys {p : Program} {t : ClassTable} {c : Name}
    (hn : (p.main.name.val :: p.classes.map (·.name.val)).Nodup)
    (hkeys : t.classes.keys = p.main.name.val :: p.classes.map (·.name.val)) (hmain : t.main = some p.main.name.val) :
    t.isType c = true ↔ ∃ d ∈ p.classes, d.name.val = c := by
  rw [isType_iff, hkeys, hmain, List.mem_cons, List.mem_map]
  constructor
  · rintro ⟨rfl | hc, hne⟩
    · exact absurd rfl hne
    · exact hc
  · rintro ⟨d, hd, rfl⟩
    exact ⟨.inr ⟨d, hd, rfl⟩, fun heq =>
      (List.nodup_cons.1 hn).1 (Option.some.inj heq ▸ List.mem_map_of_mem hd)⟩

theorem SameHierarchy.isType {t u : ClassTable} (h : SameHierarchy t u) (c : Name) : u.isType c = t.isType c := by
  rw [Bool.eq_iff_iff, isType_iff, isType_iff, h.keys, h.main]

theorem SameHierarchy.declares {t u : ClassTable} (h : SameHierarchy t u) {ty : Ty} (hty : t.Declares ty) :
    u.Declares ty := by
  cases hty with
  | int => exact .int
  | boolean => exact .boolean
  | intArray => exact .intArray
  | object hc => exact .object ((h.isType _).trans hc)

/-! ## Adding members -/

/-- `u` is `t` with the entry `e` for `c`, whose parent is the old one. -/
structure Replaced (t u : ClassTable) (c : Name) (e : ClassEntry) : Prop where
  hierarchy : SameHierarchy t u
  here : u.get? c = some e
  elsewhere : ∀ d, d ≠ c → u.get? d = t.get? d

theorem addMember_sound {t u : ClassTable} {c : Name} {member : Located Name} {add : ClassEntry → Option ClassEntry}
    {e : ClassEntry} (he : t.get? c = some e) (hadd : ∀ e', add e = some e' → e'.parent = e.parent)
    (h : t.addMember c member add = .ok u) : ∃ e', add e = some e' ∧ Replaced t u c e' := by
  rw [addMember, he] at h
  simp only at h
  cases hput : add e with
  | none => rw [hput] at h; cases h
  | some e' =>
    rw [hput] at h
    cases h
    have hget : ∀ d, (t.classes.put c e').get? d = if c = d then some e' else t.classes.get? d :=
      fun d => t.classes.get?_put c d e'
    refine ⟨e', rfl, ⟨?_, rfl, fun d => ?_⟩, ?_, fun d hd => ?_⟩
    · have hc : c ∈ t.classes.keys := Table.mem_keys_iff.2 ⟨e, he⟩
      rw [Table.keys_put, if_pos hc]
    · simp only [parentOf, get?, hget]
      split
      · rename_i hcd
        subst hcd
        have he : t.classes.get? c = some e := he
        rw [he]
        exact hadd e' hput
      · rfl
    · exact (hget c).trans (if_pos rfl)
    · exact (hget d).trans (if_neg fun h => hd h.symm)

/-- Members of one sort that come in one by one stand in the entry in order, with its other parts as they were. -/
theorem declareAll_sound {α β γ : Type} {c : Name} {declare : ClassTable → α → Semantic ClassTable}
    {Declared : ClassTable → α → Prop} {own : ClassEntry → List β} {other : ClassEntry → γ} (member : α → β)
    (hone : ∀ {t u e a}, t.get? c = some e → declare t a = .ok u →
      Declared t a ∧ ∃ e', Replaced t u c e' ∧ other e' = other e ∧ own e' = own e ++ [member a])
    (hsame : ∀ {t u a}, SameHierarchy t u → Declared t a → Declared u a) :
    ∀ {as : List α} {t u : ClassTable} {e : ClassEntry}, t.get? c = some e → as.foldlM declare t = .ok u →
      (∀ a ∈ as, Declared u a) ∧ ∃ e', Replaced t u c e' ∧ other e' = other e ∧ own e' = own e ++ as.map member
  | [], t, u, e, he, h => by
    cases pure_eq_ok.1 h
    exact ⟨fun _ h => (List.not_mem_nil h).elim, e, ⟨.refl t, he, fun _ _ => rfl⟩, rfl, (List.append_nil _).symm⟩
  | a :: as, t, u, e, he, h => by
    rw [List.foldlM_cons, bind_eq_ok] at h
    obtain ⟨v, hv, h⟩ := h
    obtain ⟨ha, e₁, hr₁, ho₁, hm₁⟩ := hone he hv
    obtain ⟨has, e₂, hr₂, ho₂, hm₂⟩ := declareAll_sound member hone hsame hr₁.here h
    have hhierarchy := hr₁.hierarchy.trans hr₂.hierarchy
    have helsewhere : ∀ d, d ≠ c → u.get? d = t.get? d := fun d hd => by
      rw [hr₂.elsewhere d hd, hr₁.elsewhere d hd]
    refine ⟨List.forall_mem_cons.2 ⟨hsame hhierarchy ha, has⟩, e₂, ⟨hhierarchy, hr₂.here, helsewhere⟩, ?_, ?_⟩
    · rw [ho₂, ho₁]
    · rw [hm₂, hm₁, List.append_assoc, List.map_cons, List.singleton_append]

theorem declareField_sound {t u : ClassTable} {c : Name} {e : ClassEntry} {d : Declaration} (he : t.get? c = some e)
    (h : t.declareField c d = .ok u) : t.Declares d.ty.val ∧ ∃ e', Replaced t u c e' ∧
      (e'.parent, e'.methods) = (e.parent, e.methods) ∧
      e'.fields.entries = e.fields.entries ++ [(d.name.val, d.ty.val)] := by
  simp only [declareField, bind_eq_ok, checkDeclared_eq_ok] at h
  obtain ⟨-, hd, h⟩ := h
  obtain ⟨e', hadd, hr⟩ := addMember_sound he (by
    intro e' h'
    obtain ⟨fields, -, rfl⟩ := Option.map_eq_some_iff.1 h'
    rfl) h
  obtain ⟨fields, hput, rfl⟩ := Option.map_eq_some_iff.1 hadd
  exact ⟨hd, _, hr, rfl, (Table.putNew?_eq_some_iff.1 hput).2⟩

/-- The types that a method's signature names can be declared. -/
def DeclaresSignature (t : ClassTable) (m : Method) : Prop :=
  t.Declares m.returns.val ∧ ∀ d ∈ m.formals, t.Declares d.ty.val

theorem SameHierarchy.declaresSignature {t u : ClassTable} (h : SameHierarchy t u) {m : Method}
    (hm : t.DeclaresSignature m) : u.DeclaresSignature m :=
  ⟨h.declares hm.1, fun d hd => h.declares (hm.2 d hd)⟩

theorem declareMethod_sound {t u : ClassTable} {c : Name} {e : ClassEntry} {m : Method} (he : t.get? c = some e)
    (h : t.declareMethod c m = .ok u) : t.DeclaresSignature m ∧ ∃ e', Replaced t u c e' ∧
      (e'.parent, e'.fields) = (e.parent, e.fields) ∧
      e'.methods.entries = e.methods.entries ++ [(m.name.val, m.signature)] := by
  simp only [declareMethod, bind_eq_ok, checkDeclared_eq_ok, forM_eq_ok] at h
  obtain ⟨-, hreturns, -, hformals, h⟩ := h
  obtain ⟨e', hadd, hr⟩ := addMember_sound he (by
    intro e' h'
    obtain ⟨methods, -, rfl⟩ := Option.map_eq_some_iff.1 h'
    rfl) h
  obtain ⟨methods, hput, rfl⟩ := Option.map_eq_some_iff.1 hadd
  exact ⟨⟨hreturns, hformals⟩, _, hr, rfl, (Table.putNew?_eq_some_iff.1 hput).2⟩

/-- **The table's entry of a class is what the class declares.** -/
structure HoldsClass (t : ClassTable) (c : ClassDecl) : Prop where
  entry : ∃ e, t.get? c.name.val = some e ∧ e.parent = c.parent.map (·.val) ∧
    e.fields.entries = c.fields.map (fun d => (d.name.val, d.ty.val)) ∧
    e.methods.entries = c.methods.map fun m => (m.name.val, m.signature)
  fields : ∀ d ∈ c.fields, t.Declares d.ty.val
  methods : ∀ m ∈ c.methods, t.DeclaresSignature m

theorem HoldsClass.of_same {t u : ClassTable} {c : ClassDecl} (h : t.HoldsClass c) (hsame : SameHierarchy t u)
    (hget : u.get? c.name.val = t.get? c.name.val) : u.HoldsClass c := by
  obtain ⟨he, hf, hm⟩ := h
  exact ⟨hget ▸ he, fun d hd => hsame.declares (hf d hd), fun m hmem => hsame.declaresSignature (hm m hmem)⟩

theorem declareMembers_sound {t u : ClassTable} {c : ClassDecl}
    (he : t.get? c.name.val = some (registration c).2) (h : t.declareMembers c = .ok u) :
    SameHierarchy t u ∧ u.HoldsClass c ∧ ∀ d, d ≠ c.name.val → u.get? d = t.get? d := by
  rw [declareMembers, bind_eq_ok] at h
  obtain ⟨v, hv, h⟩ := h
  obtain ⟨hfields, e₁, hr₁, ho₁, hf₁⟩ :=
    declareAll_sound (fun d : Declaration => (d.name.val, d.ty.val)) declareField_sound
      (fun hsame hd => hsame.declares hd) he hv
  obtain ⟨hmethods, e₂, hr₂, ho₂, hm₂⟩ :=
    declareAll_sound (fun m : Method => (m.name.val, m.signature)) declareMethod_sound
      (fun hsame hm => hsame.declaresSignature hm) hr₁.here h
  obtain ⟨hp₁, hm₁⟩ := Prod.mk.inj ho₁
  obtain ⟨hp₂, hf₂⟩ := Prod.mk.inj ho₂
  refine ⟨hr₁.hierarchy.trans hr₂.hierarchy, ⟨⟨e₂, hr₂.here, hp₂.trans hp₁, ?_, ?_⟩, ?_, hmethods⟩, ?_⟩
  · rw [hf₂, hf₁]
    rfl
  · rw [hm₂, hm₁]
    rfl
  · exact fun d hd => hr₂.hierarchy.declares (hfields d hd)
  · exact fun d hd => (hr₂.elsewhere d hd).trans (hr₁.elsewhere d hd)

theorem declareAllMembers_sound : ∀ {cs : List ClassDecl} {t u : ClassTable}, (cs.map (·.name.val)).Nodup →
    (∀ c ∈ cs, t.get? c.name.val = some (registration c).2) → cs.foldlM declareMembers t = .ok u →
      SameHierarchy t u ∧ (∀ c ∈ cs, u.HoldsClass c) ∧ ∀ d, d ∉ cs.map (·.name.val) → u.get? d = t.get? d
  | [], t, u, _, _, h => by
    cases pure_eq_ok.1 h
    exact ⟨.refl t, fun _ h => (List.not_mem_nil h).elim, fun _ _ => rfl⟩
  | c :: cs, t, u, hn, he, h => by
    rw [List.map_cons, List.nodup_cons] at hn
    rw [List.foldlM_cons, bind_eq_ok] at h
    obtain ⟨v, hv, h⟩ := h
    obtain ⟨hec, hecs⟩ := List.forall_mem_cons.1 he
    obtain ⟨hs₁, hc, hother₁⟩ := declareMembers_sound hec hv
    have hecs' : ∀ d ∈ cs, v.get? d.name.val = some (registration d).2 := fun d hd => by
      rw [hother₁ d.name.val fun heq => hn.1 (heq ▸ List.mem_map_of_mem hd)]
      exact hecs d hd
    obtain ⟨hs₂, hcs, hother₂⟩ := declareAllMembers_sound hn.2 hecs' h
    refine ⟨hs₁.trans hs₂, List.forall_mem_cons.2 ⟨hc.of_same hs₂ (hother₂ _ hn.1), hcs⟩, fun d hd => ?_⟩
    rw [List.map_cons, List.mem_cons, not_or] at hd
    exact (hother₂ d hd.2).trans (hother₁ d hd.1)

/-! ## Validating the hierarchy -/

theorem checkParent_eq_ok {t : ClassTable} {c parent : Name} {clause : Located Name} {u : Unit} :
    t.checkParent c parent clause = .ok u ↔
      t.isType parent = true ∧ t.meetsOrExceeds c (t.size + 1) parent = false := by
  rw [checkParent]
  cases t.isType parent <;> cases t.meetsOrExceeds c (t.size + 1) parent <;> simp

theorem validate_eq_ok {t : ClassTable} {locate : Name → Option (Located Name)} {u : Unit} :
    (t.validate locate).result = .ok u ↔ ∀ e ∈ t.classes.entries, ∀ parent clause, e.2.parent = some parent →
      locate e.1 = some clause → t.isType parent = true ∧ t.meetsOrExceeds e.1 (t.size + 1) parent = false := by
  simp only [validate, Logged.result_bind, Logged.result_ofExcept, Logged.result_note, bind_eq_ok, forM_eq_ok]
  constructor
  · rintro ⟨_, h, _⟩ e he parent clause hp hc
    have h := h e he
    simp only [hp, hc] at h
    exact checkParent_eq_ok.1 h
  · refine fun h => ⟨(), fun e he => ?_, trivial⟩
    split
    · rename_i parent clause hp hc
      exact checkParent_eq_ok.2 (h e he parent clause hp hc)
    · rfl

end ClassTable

theorem parentClause_of_mem {p : Program} (hn : (p.classes.map (·.name.val)).Nodup) {c : ClassDecl}
    (hc : c ∈ p.classes) : p.parentClause c.name.val = c.parent := by
  rw [Program.parentClause, find?_key_of_mem (fun d : ClassDecl => d.name.val) hn hc]
  rfl

/-! ## The table of a program -/

/-- **What a class table made from a program says of it.** -/
structure Program.Declarations (p : Program) (t : ClassTable) : Prop where
  distinct : (p.main.name.val :: p.classes.map (·.name.val)).Nodup
  keys : t.classes.keys = p.main.name.val :: p.classes.map (·.name.val)
  main : t.main = some p.main.name.val
  mainEntry : t.get? p.main.name.val = some ⟨none, .empty, .empty⟩
  holds : ∀ c ∈ p.classes, t.HoldsClass c
  parents : ∀ c ∈ p.classes, ∀ d ∈ c.parent, t.isType d.val = true
  lines : ∀ c ∈ p.classes, ∃ l, Line t.parentOf c.name.val l

theorem result_classTable {p : Program} : p.classTable.result = p.registered >>= fun names =>
    (names.validate p.parentClause).result >>= fun _ => p.classes.foldlM ClassTable.declareMembers names := by
  simp only [Program.classTable, Logged.result_bind, Logged.result_liftM, Logged.result_ofExcept, Logged.result_note]
  congr
  funext names
  congr
  funext _
  cases p.classes.foldlM ClassTable.declareMembers names <;> rfl

theorem Program.declarations_of_classTable {p : Program} {t : ClassTable} (h : p.classTable.result = .ok t) :
    p.Declarations t := by
  simp only [result_classTable, bind_eq_ok, registered_eq_ok, ClassTable.validate_eq_ok] at h
  obtain ⟨names, hnames, _, hvalid, h⟩ := h
  obtain ⟨hmain, hcs⟩ := List.nodup_cons.1 hnames.distinct
  obtain ⟨hsame, hholds, hother⟩ := ClassTable.declareAllMembers_sound hcs (fun c hc => hnames.get?_of_mem hc) h
  have hvalid : ∀ c ∈ p.classes, ∀ d ∈ c.parent, names.isType d.val = true ∧
      names.meetsOrExceeds c.name.val (names.size + 1) d.val = false := fun c hc d hd => by
    refine hvalid (ClassTable.registration c) ?_ d.val d ?_ ?_
    · rw [hnames.entries]
      exact List.mem_cons_of_mem _ (List.mem_map_of_mem hc)
    · rw [ClassTable.registration, hd]
      rfl
    · exact (parentClause_of_mem hcs hc).trans hd
  refine ⟨hnames.distinct, hsame.keys.trans hnames.keys, hsame.main.trans hnames.main,
    (hother _ hmain).trans hnames.get?_main, hholds, fun c hc d hd => (hsame.isType _).trans (hvalid c hc d hd).1, fun c hc => ?_⟩
  have hp : names.parentOf c.name.val = c.parent.map (·.val) := by
    rw [ClassTable.parentOf, hnames.get?_of_mem hc]
    rfl
  obtain ⟨l, hl⟩ : ∃ l, Line names.parentOf c.name.val l := by
    cases hd : c.parent with
    | none => exact ⟨_, .root (by rw [hp, hd]; rfl)⟩
    | some d =>
      obtain ⟨l, hl, -⟩ := ClassTable.line_of_meetsOrExceeds (hvalid c hc d hd).2
      exact ⟨_, .step (by rw [hp, hd]; rfl) hl⟩
  exact ⟨l, hl.congr fun a _ => hsame.parent a⟩

/-- **The line of the class `c`**: the declarations of its ancestors, root first, and its own. -/
structure Program.LineOf (p : Program) (t : ClassTable) (c : Name) (line : List ClassDecl) : Prop where
  declared : ∀ d ∈ line, d ∈ p.classes
  names : t.ancestors c = line.reverse.map (·.name.val)

namespace Program.Declarations

variable {p : Program} {t : ClassTable}

theorem class_distinct (h : p.Declarations t) : (p.classes.map (·.name.val)).Nodup := (List.nodup_cons.1 h.distinct).2

/-- The types that are classes are the declared classes. -/
theorem isType_iff (h : p.Declarations t) {c : Name} : t.isType c = true ↔ ∃ d ∈ p.classes, d.name.val = c :=
  ClassTable.isType_iff_of_keys h.distinct h.keys h.main

theorem parentOf_eq (h : p.Declarations t) {c : ClassDecl} (hc : c ∈ p.classes) :
    t.parentOf c.name.val = c.parent.map (·.val) := by
  obtain ⟨e, he, hp, -⟩ := (h.holds c hc).entry
  rw [ClassTable.parentOf, he]
  exact hp

theorem classIndex_eq_some_iff (h : p.Declarations t) {c : Name} {d : ClassDecl} :
    p.classIndex.get? c = some d ↔ d ∈ p.classes ∧ d.name.val = c := by
  have hn : ((p.classes.map fun c => (c.name.val, c)).map Prod.fst).Nodup := by
    rw [List.map_map]
    exact h.class_distinct
  rw [Table.get?_eq_some_iff, Program.classIndex, Table.entries_ofList hn, List.mem_map]
  constructor
  · rintro ⟨e, he, heq⟩
    cases heq
    exact ⟨he, rfl⟩
  · rintro ⟨hd, rfl⟩
    exact ⟨d, hd, rfl⟩

/-- **Every name on the line of a class is a declared class.** -/
theorem exists_class_of_mem_line (h : p.Declarations t) {c : Name} {l : List Name} (hl : Line t.parentOf c l)
    (hc : ∃ d ∈ p.classes, d.name.val = c) : ∀ a ∈ l, ∃ d ∈ p.classes, d.name.val = a := by
  induction hl with
  | root _ => exact List.forall_mem_singleton.2 hc
  | step hp _ ih =>
    refine List.forall_mem_cons.2 ⟨hc, ih ?_⟩
    obtain ⟨d, hd, rfl⟩ := hc
    rw [h.parentOf_eq hd] at hp
    obtain ⟨q, hq, rfl⟩ := Option.map_eq_some_iff.1 hp
    exact h.isType_iff.1 (h.parents d hd q hq)

theorem ancestors_eq (h : p.Declarations t) {c : ClassDecl} (hc : c ∈ p.classes) {l : List Name}
    (hl : Line t.parentOf c.name.val l) : t.ancestors c.name.val = l := by
  refine ClassTable.ancestors_eq_of_line hl fun a ha => ?_
  obtain ⟨d, hd, rfl⟩ := h.exists_class_of_mem_line hl ⟨c, hc, rfl⟩ a ha
  rw [h.keys]
  exact List.mem_cons_of_mem _ (List.mem_map_of_mem hd)

/-- **The line of declarations of a class**, root first, runs through the ancestors that the table knows. -/
theorem lineage_eq_ok (h : p.Declarations t) {c : ClassDecl} (hc : c ∈ p.classes) :
    ∃ line, lineage p.classIndex c.name.val = .ok line ∧ p.LineOf t c.name.val line := by
  obtain ⟨l, hl⟩ := h.lines c hc
  obtain ⟨line, hline, hmem⟩ := lineage_of_line hl fun a ha => by
    obtain ⟨d, hd, rfl⟩ := h.exists_class_of_mem_line hl ⟨c, hc, rfl⟩ a ha
    exact ⟨d, h.classIndex_eq_some_iff.2 ⟨hd, rfl⟩, (h.parentOf_eq hd).symm⟩
  have hmem := hmem.imp fun _ _ hget => h.classIndex_eq_some_iff.1 hget
  have hnames := map_eq_of_forall₂ id (fun d : ClassDecl => d.name.val) hmem fun _ _ hd => hd.2.symm
  refine ⟨line, hline, fun d hd => ?_, ?_⟩
  · obtain ⟨_, -, hmem, -⟩ := forall₂_mem_right hmem d hd
    exact hmem
  · rw [h.ancestors_eq hc hl, List.map_reverse, ← hnames, List.map_id, List.reverse_reverse]

/-- A line is known by the names on it. -/
theorem lineOf_eq (h : p.Declarations t) {c : Name} {line : List ClassDecl} (hl : p.LineOf t c line) :
    line = (t.ancestors c).reverse.filterMap p.classIndex.get? := by
  have hget : ∀ d ∈ line, (p.classIndex.get? ∘ fun d : ClassDecl => d.name.val) d = some d := fun d hd =>
    h.classIndex_eq_some_iff.2 ⟨hl.declared d hd, rfl⟩
  rw [hl.names, List.map_reverse, List.reverse_reverse, List.filterMap_map, List.filterMap_congr hget, List.filterMap_some]

/-- **The line of an ancestor is where the line of a class begins.** -/
theorem lineOf_begins (h : p.Declarations t) {c : ClassDecl} (hc : c ∈ p.classes) {a : Name}
    (ha : a ∈ t.ancestors c.name.val) {line line' : List ClassDecl} (hl : p.LineOf t c.name.val line)
    (hl' : p.LineOf t a line') : line' <+: line := by
  obtain ⟨l, hline⟩ := h.lines c hc
  rw [h.ancestors_eq hc hline] at ha
  obtain ⟨d, hd, rfl⟩ := h.exists_class_of_mem_line hline ⟨c, hc, rfl⟩ a ha
  obtain ⟨m, hm, hline'⟩ := hline.of_mem ha
  rw [h.lineOf_eq hl, h.lineOf_eq hl', h.ancestors_eq hc hline, h.ancestors_eq hd hline']
  exact (List.reverse_prefix.2 hm).filterMap _

theorem ancestors_of_root (h : p.Declarations t) {c : ClassDecl} (hc : c ∈ p.classes) (hp : c.parent = none) :
    t.ancestors c.name.val = [c.name.val] :=
  h.ancestors_eq hc (.root (by rw [h.parentOf_eq hc, hp]; rfl))

theorem ancestors_of_parent (h : p.Declarations t) {c : ClassDecl} (hc : c ∈ p.classes) {a : Located Name}
    (hp : c.parent = some a) : t.ancestors c.name.val = c.name.val :: t.ancestors a.val := by
  have hparent : t.parentOf c.name.val = some a.val := by
    rw [h.parentOf_eq hc, hp]
    rfl
  obtain ⟨d, hd, hname⟩ := h.isType_iff.1 (h.parents c hc a hp)
  obtain ⟨l, hl⟩ := h.lines d hd
  rw [← hname, h.ancestors_eq hd hl]
  exact h.ancestors_eq hc (.step (hname ▸ hparent) hl)

/-- **The line of a class is that of its parent and then the class.** -/
theorem lineOf_of_parent (h : p.Declarations t) {c : ClassDecl} (hc : c ∈ p.classes) {a : Located Name}
    (hp : c.parent = some a) {line line' : List ClassDecl} (hl : p.LineOf t c.name.val line)
    (hl' : p.LineOf t a.val line') : line = line' ++ [c] := by
  have hget : p.classIndex.get? c.name.val = some c := h.classIndex_eq_some_iff.2 ⟨hc, rfl⟩
  rw [h.lineOf_eq hl, h.lineOf_eq hl', h.ancestors_of_parent hc hp, List.reverse_cons, List.filterMap_append,
    List.filterMap_cons_some hget]
  rfl

theorem lineOf_of_root (h : p.Declarations t) {c : ClassDecl} (hc : c ∈ p.classes) (hp : c.parent = none)
    {line : List ClassDecl} (hl : p.LineOf t c.name.val line) : line = [c] := by
  have hget : p.classIndex.get? c.name.val = some c := h.classIndex_eq_some_iff.2 ⟨hc, rfl⟩
  rw [h.lineOf_eq hl, h.ancestors_of_root hc hp, List.reverse_singleton, List.filterMap_cons_some hget]
  rfl

end Program.Declarations

end MiniJava
