import MiniJava.Proofs.ClassTable.Walks
/-!
# What a class table contains

A program has a class table just if its declarations cohere: no name is taken twice where it may be taken once, what is
extended or named as a type is a class of the program, and no class comes back to itself along what the classes extend
(`wellDeclared_iff_coherent`).  The table then says nothing else than the declarations do, row by row
(`Program.classTable_exact`).
-/
namespace MiniJava

open Relation (TransGen)

namespace Program

variable {p : Program} {c d : Name}

/-! ## Declarations that cohere -/

/-- A class that is called `c` extends what is called `d`. -/
def Extends (p : Program) (c d : Name) : Prop := ∃ k ∈ p.classes, k.name.val = c ∧ ∃ clause ∈ k.parent, clause.val = d

/-- **The declarations of the program cohere.** -/
structure Coherent (p : Program) : Prop where
  classNames : (p.main.name.val :: p.classes.map (·.name.val)).Nodup
  parents : ∀ c ∈ p.classes, ∀ clause ∈ c.parent, p.HasClass clause.val
  acyclic : ∀ c, ¬ TransGen p.Extends c c
  fieldNames : ∀ c ∈ p.classes, (c.fields.map (·.name.val)).Nodup
  methodNames : ∀ c ∈ p.classes, (c.methods.map (·.name.val)).Nodup
  fieldTypes : ∀ c ∈ p.classes, ∀ d ∈ c.fields, p.Declares d.ty.val
  formalTypes : ∀ c ∈ p.classes, ∀ m ∈ c.methods, ∀ d ∈ m.formals, p.Declares d.ty.val
  returnTypes : ∀ c ∈ p.classes, ∀ m ∈ c.methods, p.Declares m.returns.val

theorem mem_names_of_parentName (h : p.parentName c = some d) : c ∈ p.classes.map (·.name.val) := by
  obtain ⟨clause, hclause, -⟩ := Option.map_eq_some_iff.1 h
  obtain ⟨k, hk, -⟩ := Option.bind_eq_some_iff.1 hclause
  have hname : k.name.val = c := by simpa using List.find?_some hk
  rw [← hname]
  exact List.mem_map_of_mem (List.mem_of_find?_eq_some hk)

theorem leads_parentName (hn : (p.classes.map (·.name.val)).Nodup) : Leads p.parentName = p.Extends := by
  funext c d
  apply propext
  unfold Leads Extends
  constructor
  · intro h
    obtain ⟨k, hk, rfl⟩ := List.mem_map.1 (mem_names_of_parentName h)
    rw [parentName_of_mem hn hk] at h
    exact ⟨k, hk, rfl, Option.map_eq_some_iff.1 h⟩
  · rintro ⟨k, hk, rfl, hclause⟩
    rw [parentName_of_mem hn hk]
    exact Option.map_eq_some_iff.2 hclause

/-- **Every class has a line of ancestors just if no class is its own ancestor.** -/
theorem lines_iff_acyclic (hn : (p.classes.map (·.name.val)).Nodup) :
    (∀ c ∈ p.classes, ∃ l, Line p.parentName c.name.val l) ↔ ∀ c, ¬ TransGen p.Extends c c := by
  rw [← leads_parentName hn]
  constructor
  · intro hlines c hcycle
    -- A name that comes back is that of a class, since it has a parent.
    obtain ⟨d, hd, -⟩ := TransGen.head'_iff.1 hcycle
    obtain ⟨k, hk, rfl⟩ := List.mem_map.1 (mem_names_of_parentName hd)
    obtain ⟨l, hl⟩ := hlines k hk
    exact hl.not_cycle .refl hcycle
  · intro hacyclic c _
    rcases exists_line_or_cycle (fun _ _ => mem_names_of_parentName) c.name.val with hline | ⟨a, -, hcycle⟩
    · exact hline
    · exact absurd hcycle (hacyclic a)

theorem wellDeclared_iff_coherent : p.WellDeclared ↔ p.Coherent := by
  constructor
  · intro h
    have hn := (List.nodup_cons.1 h.distinct).2
    exact {
      classNames := h.distinct
      parents := fun c hc => (h.classes c hc).parent
      acyclic := (lines_iff_acyclic hn).1 fun c hc => (h.classes c hc).line
      fieldNames := fun c hc => (h.classes c hc).fieldNames
      methodNames := fun c hc => (h.classes c hc).methodNames
      fieldTypes := fun c hc => (h.classes c hc).fields
      formalTypes := fun c hc m hm => ((h.classes c hc).methods m hm).2
      returnTypes := fun c hc m hm => ((h.classes c hc).methods m hm).1 }
  · intro h
    have hn := (List.nodup_cons.1 h.classNames).2
    exact ⟨h.classNames, fun c hc => {
      parent := h.parents c hc
      line := (lines_iff_acyclic hn).2 h.acyclic c hc
      fieldNames := h.fieldNames c hc
      methodNames := h.methodNames c hc
      fields := h.fieldTypes c hc
      methods := fun m hm => ⟨h.returnTypes c hc m hm, h.formalTypes c hc m hm⟩ }⟩

end Program

/-! ## Rows -/

/-- What is said of one class: its name and its parent's, its own fields and its own methods. -/
structure ClassRow where
  name : Name
  parent : Option Name
  fields : List (Name × Ty)
  methods : List (Name × Signature)
  deriving DecidableEq, Repr

def ClassEntry.row (c : Name) (e : ClassEntry) : ClassRow := ⟨c, e.parent, e.fields.entries, e.methods.entries⟩

def ClassTable.rows (t : ClassTable) : List ClassRow := t.classes.entries.map fun e => e.2.row e.1

def ClassDecl.row (c : ClassDecl) : ClassRow := ⟨c.name.val, c.parent.map (·.val), c.fieldTypes, c.signatures⟩

/-- The rows of a program: the main class has nothing, the other classes have what they declare. -/
def Program.rows (p : Program) : List ClassRow := ⟨p.main.name.val, none, [], []⟩ :: p.classes.map ClassDecl.row

/-- Two lists whose keys agree in order say the same if what is under one key says the same. -/
theorem map_eq_map_of_keys {α β γ δ : Type} {key : β → α} {f : α × γ → δ} {g : β → δ} : ∀ {es : List (α × γ)} {bs : List β},
    es.map Prod.fst = bs.map key → (∀ e ∈ es, ∀ b ∈ bs, e.1 = key b → f e = g b) → es.map f = bs.map g
  | [], [], _, _ => rfl
  | e :: es, b :: bs, hkeys, h => by
    rw [List.map_cons, List.map_cons, List.cons.injEq] at hkeys
    rw [List.map_cons, List.map_cons, h e List.mem_cons_self b List.mem_cons_self hkeys.1,
      map_eq_map_of_keys hkeys.2 fun e he b hb => h e (List.mem_cons_of_mem _ he) b (List.mem_cons_of_mem _ hb)]

namespace Program

variable {p : Program} {t : ClassTable}

/-- **The table of a program has the rows of the program**, in their order. -/
theorem Declarations.rows_eq (h : p.Declarations t) : t.rows = p.rows := by
  have hget : ∀ e ∈ t.classes.entries, t.get? e.1 = some e.2 := fun e he => Table.get?_eq_some_iff.2 he
  have hkeys := h.keys
  unfold ClassTable.rows rows
  unfold Table.keys at hkeys
  cases hentries : t.classes.entries with
  | nil =>
    rw [hentries] at hkeys
    cases hkeys
  | cons e es =>
    rw [hentries, List.map_cons, List.cons.injEq] at hkeys
    rw [hentries, List.forall_mem_cons] at hget
    rw [List.map_cons, List.cons.injEq]
    refine ⟨?_, map_eq_map_of_keys hkeys.2 fun e he c hc hname => ?_⟩
    · have hmain := hget.1
      rw [hkeys.1, h.mainEntry] at hmain
      rw [← Option.some.inj hmain, hkeys.1]
      rfl
    · obtain ⟨entry, hentry, hparent, hfields, hmethods⟩ := (h.holds c hc).entry
      have hentry' := hget.2 e he
      rw [hname, hentry] at hentry'
      unfold ClassEntry.row ClassDecl.row
      rw [← Option.some.inj hentry', hname, hparent, hfields, hmethods]
      rfl

/-- **Which programs have a class table, and what it contains.**  A program has one just if its declarations cohere.  The
table has the main class for its main class, and its rows are those of the program: first the main class, with nothing of
its own, then the classes as they are declared, each with its parent, its fields and its methods. -/
theorem classTable_exact (p : Program) :
    ((∃ t, p.classTable.result = .ok t) ↔ p.Coherent) ∧
    ∀ t, p.classTable.result = .ok t → t.main = some p.main.name.val ∧ t.rows = p.rows := by
  refine ⟨exists_classTable_iff.trans wellDeclared_iff_coherent, fun t ht => ?_⟩
  have h := declarations_of_classTable ht
  exact ⟨h.main, h.rows_eq⟩

end Program

end MiniJava
