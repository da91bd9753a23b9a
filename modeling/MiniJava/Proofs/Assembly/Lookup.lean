import MiniJava.Assembly.Text
import MiniJava.Proofs.Assembly.Emission
import MiniJava.Proofs.ClassTable.Nearest
/-!
# Members that the machine finds

The machine knows of classes what the listings say.  It finds a member by going up from a class, by the parents that the
listings name, to the first listing that has it (`Locates`): a field by its name, a method by its name and its descriptor.

The listings of a program outline its classes (`lowerProgram_outlines`), so that the machine goes the way that the class
table goes (`locates_iff`).
-/
namespace MiniJava

namespace Assembly

/-! ## What listings say of classes -/

/-- **The listing `k` says of the class what `c` declares**, the code of the methods apart. -/
structure Outlines (c : ClassDecl) (k : ClassListing) : Prop where
  name : k.name = c.name.val
  parent : k.parent = c.parent.map (·.val)
  fields : k.fields = c.fields.map Declaration.storage
  methods : k.methods.map (fun l => (l.name, l.formals, l.returns)) =
    c.methods.map fun m => (m.name.val, m.formalStorages, m.returns.val.storage)

theorem lowerClass_outlines {interfaces : Table Name Interface} {c : ClassDecl} {k : ClassListing} {n n' : Nat}
    (h : (lowerClass interfaces c n).result = .ok (k, n')) : Outlines c k := by
  obtain ⟨-, hmethods⟩ := lowerClass_sound h
  simp only [lowerClass, logged_bind_eq_ok, logged_pure_eq_ok, report_eq_ok] at h
  obtain ⟨_, _, rfl, ls, _, -, rfl, rfl⟩ := h
  refine ⟨rfl, rfl, rfl, (map_eq_of_forall₂ _ _ hmethods fun m l hl => ?_).symm⟩
  rw [hl.name, hl.formals, hl.returns]

/-- **The listings of a program outline its classes.** -/
theorem lowerProgram_outlines {p : Program} {main : Name} {code : List Instr} {classes : List ClassListing}
    (h : (lowerProgram p).result = .ok (.main main code :: classes.map .cls)) : List.Forall₂ Outlines p.classes classes := by
  obtain ⟨_, _, _, classes', _, -, -, hclasses, heq⟩ := lowerProgram_eq_ok.1 h
  have hinjective : Function.Injective Listing.cls := fun _ _ h => Listing.cls.inj h
  cases hinjective.list_map (List.cons.inj heq).2
  refine (logged_mapM_sound hclasses).imp ?_
  rintro c k ⟨_, _, hk⟩
  exact lowerClass_outlines hk

/-- The listing has a method of that name and descriptor. -/
def ClassListing.HasMethod (m : Name) (descriptor : String) (k : ClassListing) : Prop :=
  ∃ l ∈ k.methods, l.name = m ∧ descriptors l.formals l.returns = descriptor

/-- The listing has a field of that name. -/
def ClassListing.HasField (f : Name) (k : ClassListing) : Prop := f ∈ k.fields.map Prod.fst

/-! ## Going up -/

/-- **Where the machine finds a member from the class `c` upwards**: in `a`, the first class whose listing has one. -/
inductive Locates (classes : List ClassListing) (has : ClassListing → Prop) : Name → Name → Prop
  | here {k : ClassListing} : k ∈ classes → has k → Locates classes has k.name k.name
  | up {k : ClassListing} {parent a : Name} : k ∈ classes → ¬ has k → k.parent = some parent →
      Locates classes has parent a → Locates classes has k.name a

section

variable {p : Program} {t : ClassTable} {classes : List ClassListing} {has : ClassListing → Prop}

theorem listing_distinct (h : p.Declarations t) (hk : List.Forall₂ Outlines p.classes classes) :
    (classes.map (·.name)).Nodup := by
  rw [← map_eq_of_forall₂ (fun d : ClassDecl => d.name.val) (·.name) hk fun _ _ h => h.name.symm]
  exact h.class_distinct

/-- The machine's first step from a class whose listing is `k`. -/
theorem locates_listing_iff (hn : (classes.map (·.name)).Nodup) {k : ClassListing} (hk : k ∈ classes) {a : Name} :
    Locates classes has k.name a ↔
      (has k ∧ a = k.name) ∨ (¬ has k ∧ ∃ parent, k.parent = some parent ∧ Locates classes has parent a) := by
  constructor
  · intro h
    generalize hc : k.name = c at h
    cases h with
    | here hk' hhas =>
      cases List.inj_on_of_nodup_map hn hk hk' hc
      exact .inl ⟨hhas, rfl⟩
    | up hk' hhas hparent h =>
      cases List.inj_on_of_nodup_map hn hk hk' hc
      exact .inr ⟨hhas, _, hparent, h⟩
  · rintro (⟨hhas, rfl⟩ | ⟨hhas, parent, hparent, h⟩)
    · exact .here hk hhas
    · exact .up hk hhas hparent h

/-- **The machine finds a member where it first comes among the ancestors of the class.** -/
theorem locates_iff (h : p.Declarations t) (hk : List.Forall₂ Outlines p.classes classes) {P : Name → Prop}
    (hhas : ∀ d ∈ p.classes, ∀ k, Outlines d k → (has k ↔ P d.name.val)) {c : ClassDecl} (hc : c ∈ p.classes) {a : Name} :
    Locates classes has c.name.val a ↔ FirstWith P (t.ancestors c.name.val) a := by
  have hn := listing_distinct h hk
  -- the classes that the line goes through are all declared, so each of them has a listing
  have hline : ∀ {c : Name} {l : List Name}, Line t.parentOf c l → (∃ d ∈ p.classes, d.name.val = c) →
      (Locates classes has c a ↔ FirstWith P l a) := by
    intro c l hl
    induction hl with
    | root hp =>
      rintro ⟨d, hd, rfl⟩
      obtain ⟨k, hmem, hdk⟩ := forall₂_mem_left hk d hd
      rw [h.parentOf_eq hd, ← hdk.parent] at hp
      rw [← hdk.name, locates_listing_iff hn hmem, FirstWith.cons_iff, hhas d hd k hdk, hdk.name, hp]
      have hnone : ¬ FirstWith P [] a := fun h => List.not_mem_nil h.mem
      simp [hnone]
    | step hp _ ih =>
      rintro ⟨d, hd, rfl⟩
      obtain ⟨k, hmem, hdk⟩ := forall₂_mem_left hk d hd
      rw [h.parentOf_eq hd] at hp
      obtain ⟨q, hq, rfl⟩ := Option.map_eq_some_iff.1 hp
      have ih := ih (h.isType_iff.1 (h.parents d hd q hq))
      rw [← hdk.parent] at hp
      rw [← hdk.name, locates_listing_iff hn hmem, FirstWith.cons_iff, hhas d hd k hdk, hdk.name, hp, ← ih]
      simp
  obtain ⟨l, hl⟩ := h.lines c hc
  rw [h.ancestors_eq hc hl]
  exact hline hl ⟨c, hc, rfl⟩

/-- **The cell that a field's name stands for in code of the class `c`** is that of the nearest class that declares the
field. -/
theorem locates_field_iff (h : p.Declarations t) (hk : List.Forall₂ Outlines p.classes classes) {c : ClassDecl}
    (hc : c ∈ p.classes) {f a : Name} : Locates classes (·.HasField f) c.name.val a ↔
      FirstWith (fun b => (t.ownField? b f).isSome) (t.ancestors c.name.val) a := by
  refine locates_iff h hk (fun d hd k hdk => ?_) hc
  have hnames : k.fields.map Prod.fst = d.fieldTypes.map Prod.fst := by
    rw [hdk.fields, ClassDecl.fieldTypes, List.map_map, List.map_map]
    rfl
  rw [ClassListing.HasField, hnames, h.ownField?_eq hd, Option.isSome_iff_ne_none, Ne, valueOf?_eq_none_iff, not_not]

/-- The class `c` itself declares the method with types of that descriptor. -/
def DeclaresAs (t : ClassTable) (m : Name) (descriptor : String) (c : Name) : Prop :=
  ∃ sig, t.ownMethod? c m = some sig ∧ descriptors sig.storages.1 sig.storages.2 = descriptor

/-- The listing of a class has the methods that the class declares. -/
theorem hasMethod_iff (h : p.Declarations t) {d : ClassDecl} (hd : d ∈ p.classes) {k : ClassListing} (hdk : Outlines d k)
    {m : Name} {descriptor : String} : k.HasMethod m descriptor ↔ DeclaresAs t m descriptor d.name.val := by
  have hentries : k.methods.map (fun l => (l.name, l.formals, l.returns)) =
      d.signatures.map fun e => (e.1, e.2.storages.1, e.2.storages.2) := by
    rw [hdk.methods, ClassDecl.signatures, List.map_map]
    simp only [Function.comp_def, Signature.storages, Method.signature, Method.formalStorages, List.map_map]
  rw [DeclaresAs, h.ownMethod?_eq hd]
  constructor
  · rintro ⟨l, hl, rfl, rfl⟩
    have hmem := List.mem_map_of_mem (f := fun l : MethodListing => (l.name, l.formals, l.returns)) hl
    rw [hentries] at hmem
    obtain ⟨⟨m, sig⟩, hsig, heq⟩ := List.mem_map.1 hmem
    obtain ⟨rfl, hformals, hreturns⟩ := Prod.mk.inj heq |>.imp_right Prod.mk.inj
    exact ⟨sig, valueOf?_eq_some_of_mem (h.signatures_distinct hd) hsig, by rw [hformals, hreturns]⟩
  · rintro ⟨sig, hsig, rfl⟩
    have hmem := List.mem_map_of_mem (f := fun e : Name × Signature => (e.1, e.2.storages.1, e.2.storages.2))
      (mem_of_valueOf?_eq_some hsig)
    rw [← hentries] at hmem
    obtain ⟨l, hl, heq⟩ := List.mem_map.1 hmem
    obtain ⟨hname, hformals, hreturns⟩ := Prod.mk.inj heq |>.imp_right Prod.mk.inj
    exact ⟨l, hl, hname, by rw [hformals, hreturns]⟩

/-- **The class whose method the machine runs** is the nearest one that declares the method with the descriptor. -/
theorem locates_method_iff (h : p.Declarations t) (hk : List.Forall₂ Outlines p.classes classes) {c : ClassDecl}
    (hc : c ∈ p.classes) {m a : Name} {descriptor : String} :
    Locates classes (·.HasMethod m descriptor) c.name.val a ↔
      FirstWith (DeclaresAs t m descriptor) (t.ancestors c.name.val) a :=
  locates_iff h hk (fun _ hd _ hdk => hasMethod_iff h hd hdk) hc

end

end Assembly

end MiniJava
