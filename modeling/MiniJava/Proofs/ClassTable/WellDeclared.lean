import MiniJava.Proofs.ClassTable.Members
/-!
# Which programs have a class table

A program has a class table just if its declarations are in order (`exists_classTable_iff`): a matter of names, parents
and types alone, in which the order of the classes has no part.  That such a program has one is shown along the table's
making: no name is taken when it comes to be registered, no walk from a parent goes round, and no member is taken when it
comes to be added.
-/
namespace MiniJava

/-! ## Walks that end -/

namespace ClassTable

variable {t : ClassTable}

/-- A walk along a line neither goes on for too long nor meets what is not on the line. -/
theorem meetsOrExceeds_of_line {target c : Name} {l : List Name} (h : Line t.parentOf c l) (hl : target ∉ l) :
    ∀ {n : Nat}, l.length ≤ n → t.meetsOrExceeds target n c = false := by
  induction h with
  | root hc =>
    intro n hn
    rw [List.length_singleton] at hn
    obtain ⟨n, rfl⟩ := Nat.exists_eq_add_of_le' hn
    rw [meetsOrExceeds, hc, Bool.or_false, decide_eq_false_iff_not]
    exact fun heq => hl (List.mem_singleton.2 heq.symm)
  | @step c d l hc _ ih =>
    intro n hn
    rw [List.length_cons] at hn
    obtain ⟨n, rfl⟩ := Nat.exists_eq_add_of_le' (Nat.le_trans (Nat.le_add_left 1 _) hn)
    rw [List.mem_cons, not_or] at hl
    rw [meetsOrExceeds, hc, Bool.or_eq_false_iff, decide_eq_false_iff_not]
    exact ⟨fun heq => hl.1 heq.symm, ih hl.2 (Nat.le_of_succ_le_succ hn)⟩

/-! ## Members that can be added -/

theorem addMember_total {c : Name} {e e' : ClassEntry} (member : Located Name) (add : ClassEntry → Option ClassEntry)
    (he : t.get? c = some e) (hadd : add e = some e') : ∃ u, t.addMember c member add = .ok u := by
  rw [addMember, he]
  simp only [hadd]
  exact ⟨_, rfl⟩

theorem exists_putNew? {β : Type} {members : Table Name β} {x : Name} (hx : x ∉ members.keys) (v : β) :
    ∃ members', members.putNew? x v = some members' :=
  ⟨members.put x v, Table.putNew?_eq_some_iff.2 ⟨hx, putEntry_eq_append hx⟩⟩

theorem declareField_total {c : Name} {e : ClassEntry} {d : Declaration} (he : t.get? c = some e)
    (hd : t.Declares d.ty.val) (hnew : d.name.val ∉ e.fields.keys) : ∃ u, t.declareField c d = .ok u := by
  obtain ⟨fields, hput⟩ := exists_putNew? hnew d.ty.val
  obtain ⟨u, hu⟩ := addMember_total d.name (fun entry : ClassEntry =>
    (entry.fields.putNew? d.name.val d.ty.val).map fun fields => { entry with fields }) he (by rw [hput]; rfl)
  exact ⟨u, bind_eq_ok.2 ⟨(), checkDeclared_eq_ok.2 hd, hu⟩⟩

theorem declareMethod_total {c : Name} {e : ClassEntry} {m : Method} (he : t.get? c = some e)
    (hm : t.DeclaresSignature m) (hnew : m.name.val ∉ e.methods.keys) : ∃ u, t.declareMethod c m = .ok u := by
  obtain ⟨methods, hput⟩ := exists_putNew? hnew m.signature
  obtain ⟨u, hu⟩ := addMember_total m.name (fun entry : ClassEntry =>
    (entry.methods.putNew? m.name.val m.signature).map fun methods => { entry with methods }) he (by rw [hput]; rfl)
  simp only [declareMethod, bind_eq_ok, checkDeclared_eq_ok, forM_eq_ok]
  exact ⟨u, (), hm.1, (), hm.2, hu⟩

/-- Members of one sort can come in one by one as long as no name is taken. -/
theorem declareAll_total {α β γ : Type} {c : Name} {declare : ClassTable → α → Semantic ClassTable}
    {Declared : ClassTable → α → Prop} {other : ClassEntry → γ} (own : ClassEntry → Table Name β) (member : α → Name × β)
    (hone : ∀ {t u e a}, t.get? c = some e → declare t a = .ok u →
      Declared t a ∧ ∃ e', Replaced t u c e' ∧ other e' = other e ∧ (own e').entries = (own e).entries ++ [member a])
    (hsame : ∀ {t u a}, SameHierarchy t u → Declared t a → Declared u a)
    (htotal : ∀ {t e a}, t.get? c = some e → Declared t a → (member a).1 ∉ (own e).keys → ∃ u, declare t a = .ok u) :
    ∀ {as : List α} {t : ClassTable} {e : ClassEntry}, t.get? c = some e → (∀ a ∈ as, Declared t a) →
      ((own e).keys ++ as.map fun a => (member a).1).Nodup → ∃ u, as.foldlM declare t = .ok u
  | [], t, _, _, _, _ => ⟨t, rfl⟩
  | a :: as, t, e, he, hdeclared, hn => by
    obtain ⟨ha, has⟩ := List.forall_mem_cons.1 hdeclared
    have hnew : (member a).1 ∉ (own e).keys := fun hm => List.disjoint_of_nodup_append hn hm List.mem_cons_self
    obtain ⟨v, hv⟩ := htotal he ha hnew
    obtain ⟨-, e', hr, -, hown⟩ := hone he hv
    have hkeys : (own e').keys = (own e).keys ++ [(member a).1] := by
      simp only [Table.keys, hown, List.map_append, List.map_singleton]
    obtain ⟨u, hu⟩ := declareAll_total own member hone hsame htotal hr.here (fun b hb => hsame hr.hierarchy (has b hb))
      (by rw [hkeys, List.append_assoc]; exact hn)
    exact ⟨u, bind_eq_ok.2 ⟨v, hv, hu⟩⟩

/-- **The members of a class are in order**: no two fields and no two methods have one name, and the types that they name
can be declared. -/
structure Admits (t : ClassTable) (c : ClassDecl) : Prop where
  fieldNames : (c.fields.map (·.name.val)).Nodup
  methodNames : (c.methods.map (·.name.val)).Nodup
  fields : ∀ d ∈ c.fields, t.Declares d.ty.val
  methods : ∀ m ∈ c.methods, t.DeclaresSignature m

theorem SameHierarchy.admits {t u : ClassTable} (h : SameHierarchy t u) {c : ClassDecl} (hc : t.Admits c) : u.Admits c :=
  ⟨hc.fieldNames, hc.methodNames, fun d hd => h.declares (hc.fields d hd),
    fun m hm => h.declaresSignature (hc.methods m hm)⟩

theorem declareMembers_total {c : ClassDecl} (he : t.get? c.name.val = some (registration c).2) (hc : t.Admits c) :
    ∃ u, t.declareMembers c = .ok u := by
  obtain ⟨v, hv⟩ := declareAll_total ClassEntry.fields (fun d : Declaration => (d.name.val, d.ty.val))
    declareField_sound (fun hsame hd => hsame.declares hd) declareField_total he hc.fields hc.fieldNames
  obtain ⟨-, e, hr, ho, -⟩ := declareAll_sound (fun d : Declaration => (d.name.val, d.ty.val)) declareField_sound
    (fun hsame hd => hsame.declares hd) he hv
  have hmethods : e.methods.keys = [] := by rw [(Prod.mk.inj ho).2]; rfl
  obtain ⟨u, hu⟩ := declareAll_total ClassEntry.methods (fun m : Method => (m.name.val, m.signature))
    declareMethod_sound (fun hsame hm => hsame.declaresSignature hm) declareMethod_total hr.here
    (fun m hm => hr.hierarchy.declaresSignature (hc.methods m hm)) (by rw [hmethods]; exact hc.methodNames)
  exact ⟨u, bind_eq_ok.2 ⟨v, hv, hu⟩⟩

theorem declareAllMembers_total : ∀ {cs : List ClassDecl} {t : ClassTable}, (cs.map (·.name.val)).Nodup →
    (∀ c ∈ cs, t.get? c.name.val = some (registration c).2) → (∀ c ∈ cs, t.Admits c) →
      ∃ u, cs.foldlM declareMembers t = .ok u
  | [], t, _, _, _ => ⟨t, rfl⟩
  | c :: cs, t, hn, he, hcs => by
    rw [List.map_cons, List.nodup_cons] at hn
    obtain ⟨hec, hecs⟩ := List.forall_mem_cons.1 he
    obtain ⟨hac, hacs⟩ := List.forall_mem_cons.1 hcs
    obtain ⟨v, hv⟩ := declareMembers_total hec hac
    obtain ⟨hsame, -, hother⟩ := declareMembers_sound hec hv
    have hecs' : ∀ d ∈ cs, v.get? d.name.val = some (registration d).2 := fun d hd => by
      rw [hother d.name.val fun heq => hn.1 (heq ▸ List.mem_map_of_mem hd)]
      exact hecs d hd
    obtain ⟨u, hu⟩ := declareAllMembers_total hn.2 hecs' fun d hd => hsame.admits (hacs d hd)
    exact ⟨u, bind_eq_ok.2 ⟨v, hv, hu⟩⟩

end ClassTable

/-! ## Declarations that are in order -/

namespace Program

def HasClass (p : Program) (c : Name) : Prop := ∃ d ∈ p.classes, d.name.val = c

/-- The name of the parent of the class `c`. -/
def parentName (p : Program) (c : Name) : Option Name := (p.parentClause c).map (·.val)

/-- A declaration can name the type: if it is a class, the program has it. -/
def Declares (p : Program) (ty : Ty) : Prop := ∀ c, ty = .object c → p.HasClass c

/-- **The declarations of the class are in order**: its parent is a class and it is not its own ancestor, no two of its
fields and no two of its methods have one name, and all types that it names are types. -/
structure WellDeclaredClass (p : Program) (c : ClassDecl) : Prop where
  parent : ∀ d ∈ c.parent, p.HasClass d.val
  line : ∃ l, Line p.parentName c.name.val l
  fieldNames : (c.fields.map (·.name.val)).Nodup
  methodNames : (c.methods.map (·.name.val)).Nodup
  fields : ∀ d ∈ c.fields, p.Declares d.ty.val
  methods : ∀ m ∈ c.methods, p.Declares m.returns.val ∧ ∀ d ∈ m.formals, p.Declares d.ty.val

/-- **The declarations of the program are in order.** -/
structure WellDeclared (p : Program) : Prop where
  distinct : (p.main.name.val :: p.classes.map (·.name.val)).Nodup
  classes : ∀ c ∈ p.classes, p.WellDeclaredClass c

variable {p : Program} {t : ClassTable}

/-- In a table that has the program's classes, what the program declares can be declared. -/
theorem declares_iff (h : ∀ c, t.isType c = true ↔ p.HasClass c) {ty : Ty} : t.Declares ty ↔ p.Declares ty := by
  constructor
  · rintro hty c rfl
    cases hty with
    | object hc => exact (h c).1 hc
  · intro hty
    cases ty with
    | int => exact .int
    | boolean => exact .boolean
    | intArray => exact .intArray
    | object c => exact .object ((h c).2 (hty c rfl))

theorem parentName_of_mem (hn : (p.classes.map (·.name.val)).Nodup) {c : ClassDecl} (hc : c ∈ p.classes) :
    p.parentName c.name.val = c.parent.map (·.val) := congrArg _ (parentClause_of_mem hn hc)

namespace Declarations

theorem parentOf_eq_parentName (h : p.Declarations t) (c : Name) : t.parentOf c = p.parentName c := by
  by_cases hc : p.HasClass c
  · obtain ⟨d, hd, rfl⟩ := hc
    rw [h.parentOf_eq hd, parentName_of_mem h.class_distinct hd]
  · have hclause : p.classes.find? (·.name.val = c) = none :=
      List.find?_eq_none.2 fun d hd hname => hc ⟨d, hd, of_decide_eq_true hname⟩
    rw [parentName, parentClause, hclause]
    cases hget : t.get? c with
    | none => rw [ClassTable.parentOf, hget]; rfl
    | some e =>
      have hkey : c ∈ t.classes.keys := Table.mem_keys_iff.2 ⟨e, hget⟩
      rw [h.keys, List.mem_cons, List.mem_map] at hkey
      rcases hkey with rfl | hkey
      · rw [ClassTable.parentOf, h.mainEntry]
        rfl
      · exact absurd hkey hc

/-- **A program that has a class table is in order.** -/
theorem wellDeclared (h : p.Declarations t) : p.WellDeclared where
  distinct := h.distinct
  classes := fun c hc => by
    have htypes : ∀ c, t.isType c = true ↔ p.HasClass c := fun _ => h.isType_iff
    obtain ⟨l, hl⟩ := h.lines c hc
    refine ⟨fun d hd => (htypes _).1 (h.parents c hc d hd), ⟨l, hl.congr fun a _ => (h.parentOf_eq_parentName a).symm⟩,
      ?_, ?_, fun d hd => (declares_iff htypes).1 ((h.holds c hc).fields d hd), fun m hm => ?_⟩
    · have hn := h.fieldTypes_distinct hc
      rw [ClassDecl.fieldTypes, List.map_map] at hn
      exact hn
    · have hn := h.signatures_distinct hc
      rw [ClassDecl.signatures, List.map_map] at hn
      exact hn
    · obtain ⟨hreturns, hformals⟩ := (h.holds c hc).methods m hm
      exact ⟨(declares_iff htypes).1 hreturns, fun d hd => (declares_iff htypes).1 (hformals d hd)⟩

end Declarations

end Program

/-! ## Tables of names -/

namespace ClassTable

theorem valueOf?_registrations (c : Name) (cs : List ClassDecl) :
    valueOf? c (cs.map registration) = (cs.find? (·.name.val = c)).map fun d => (registration d).2 := by
  induction cs with
  | nil => rfl
  | cons d cs ih =>
    rw [List.map_cons, valueOf?, List.find?_cons]
    by_cases hd : d.name.val = c
    · rw [decide_eq_true hd]
      exact if_pos hd
    · rw [decide_eq_false hd]
      exact (if_neg hd).trans ih

end ClassTable

namespace Program

namespace Names

variable {p : Program} {t : ClassTable}

theorem isType_iff (h : p.Names t) {c : Name} : t.isType c = true ↔ p.HasClass c :=
  ClassTable.isType_iff_of_keys h.distinct h.keys h.main

theorem parentOf_eq (h : p.Names t) (c : Name) : t.parentOf c = p.parentName c := by
  rw [ClassTable.parentOf, ClassTable.get?, Table.get?, h.entries, valueOf?, parentName, parentClause]
  split
  · rename_i hc
    have hmain : p.main.name.val = c := hc
    have hnone : p.classes.find? (·.name.val = c) = none := by
      refine List.find?_eq_none.2 fun d hd hname => (List.nodup_cons.1 h.distinct).1 ?_
      rw [hmain, ← of_decide_eq_true hname]
      exact List.mem_map_of_mem hd
    rw [hnone]
    rfl
  · rw [ClassTable.valueOf?_registrations]
    cases p.classes.find? (·.name.val = c) <;> rfl

end Names

namespace WellDeclared

variable {p : Program} {t : ClassTable}

/-- Every name on the line of a class is that of a class. -/
theorem hasClass_of_mem_line (h : p.WellDeclared) {c : Name} {l : List Name} (hl : Line p.parentName c l)
    (hc : p.HasClass c) : ∀ a ∈ l, p.HasClass a := by
  induction hl with
  | root _ => exact List.forall_mem_singleton.2 hc
  | step hp _ ih =>
    refine List.forall_mem_cons.2 ⟨hc, ih ?_⟩
    obtain ⟨d, hd, rfl⟩ := hc
    rw [parentName_of_mem (List.nodup_cons.1 h.distinct).2 hd] at hp
    obtain ⟨clause, hclause, rfl⟩ := Option.map_eq_some_iff.1 hp
    exact (h.classes d hd).parent clause hclause

/-- No class of a program that is in order is its own ancestor. -/
theorem meetsOrExceeds_eq_false (h : p.WellDeclared) (ht : p.Names t) {c : ClassDecl} (hc : c ∈ p.classes)
    {clause : Located Name} (hclause : clause ∈ c.parent) :
    t.meetsOrExceeds c.name.val (t.size + 1) clause.val = false := by
  obtain ⟨l, hl⟩ := (h.classes c hc).line
  have hparent : p.parentName c.name.val = some clause.val := by
    rw [parentName_of_mem (List.nodup_cons.1 h.distinct).2 hc, hclause]
    rfl
  have hnodup := hl.nodup
  cases hl with
  | root hnone => rw [hparent] at hnone; cases hnone
  | @step _ d l hd hl =>
    rw [hparent] at hd
    cases hd
    have hlength : l.length ≤ p.classes.length := by
      rw [← List.length_map (f := fun d : ClassDecl => d.name.val)]
      refine hl.length_le_of_subset fun a ha => ?_
      exact List.mem_map.2 (h.hasClass_of_mem_line hl ((h.classes c hc).parent clause hclause) a ha)
    have hsize : t.size = p.classes.length + 1 := by
      rw [ClassTable.size, Table.size, ht.entries, List.length_cons, List.length_map]
    refine ClassTable.meetsOrExceeds_of_line (hl.congr fun a _ => ht.parentOf_eq a) (List.nodup_cons.1 hnodup).1 ?_
    omega

theorem validate_total (h : p.WellDeclared) (ht : p.Names t) : (t.validate p.parentClause).result = .ok () := by
  refine ClassTable.validate_eq_ok.2 fun e he parent clause hparent hclause => ?_
  rw [ht.entries] at he
  rcases List.mem_cons.1 he with rfl | he
  · cases hparent
  · obtain ⟨c, hc, rfl⟩ := List.mem_map.1 he
    have hclause' := (parentClause_of_mem (List.nodup_cons.1 h.distinct).2 hc).symm.trans hclause
    have hval : parent = clause.val := by
      have hmap : c.parent.map (·.val) = some parent := hparent
      rw [hclause'] at hmap
      exact (Option.some.inj hmap).symm
    rw [hval]
    exact ⟨ht.isType_iff.2 ((h.classes c hc).parent clause hclause'), h.meetsOrExceeds_eq_false ht hc hclause'⟩

theorem admits (h : p.WellDeclared) (ht : p.Names t) {c : ClassDecl} (hc : c ∈ p.classes) : t.Admits c := by
  have htypes : ∀ {ty : Ty}, t.Declares ty ↔ p.Declares ty := declares_iff fun _ => ht.isType_iff
  have hc := h.classes c hc
  exact ⟨hc.fieldNames, hc.methodNames, fun d hd => htypes.2 (hc.fields d hd), fun m hm =>
    ⟨htypes.2 (hc.methods m hm).1, fun d hd => htypes.2 ((hc.methods m hm).2 d hd)⟩⟩

/-- **A program that is in order has a class table.** -/
theorem classTable_total (h : p.WellDeclared) : ∃ t, p.classTable.result = .ok t := by
  have hkeys : (((p.main.name.val, ClassEntry.mk none .empty .empty) ::
      p.classes.map ClassTable.registration).map Prod.fst).Nodup := by
    rw [List.map_cons, List.map_map]
    exact h.distinct
  let names : ClassTable := ⟨⟨_, hkeys⟩, some p.main.name.val⟩
  have hnames : p.Names names := ⟨h.distinct, rfl, rfl⟩
  obtain ⟨t, ht⟩ := ClassTable.declareAllMembers_total (List.nodup_cons.1 h.distinct).2
    (fun c hc => hnames.get?_of_mem hc) (fun c hc => h.admits hnames hc)
  refine ⟨t, ?_⟩
  simp only [result_classTable, bind_eq_ok, registered_eq_ok]
  exact ⟨names, hnames, (), h.validate_total hnames, ht⟩

end WellDeclared

/-- **Which programs have a class table**: those whose declarations are in order. -/
theorem exists_classTable_iff {p : Program} : (∃ t, p.classTable.result = .ok t) ↔ p.WellDeclared :=
  ⟨fun ⟨_, ht⟩ => (declarations_of_classTable ht).wellDeclared, WellDeclared.classTable_total⟩

end Program

end MiniJava
