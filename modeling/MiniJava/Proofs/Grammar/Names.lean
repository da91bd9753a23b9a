import MiniJava.Compile
import MiniJava.Proofs.Grammar.Spelling
import MiniJava.Proofs.Sequencing
import MiniJava.Proofs.Token.Tiling
/-!
# The names of a program

Every name that a program declares is an identifier among its tokens, so that the names of a program that is read from a
text are those that the lexer can produce (`Source.identifiers_of_program`).
-/
namespace MiniJava

/-! ## Declared names -/

def Method.declaredNames (m : Method) : List Name := m.name.val :: (m.formals ++ m.locals).map (·.name.val)

/-- The names of the fields of a class and of its methods with their formals and locals. -/
def ClassDecl.memberNames (c : ClassDecl) : List Name :=
  c.fields.map (·.name.val) ++ c.methods.flatMap Method.declaredNames

def ClassDecl.declaredNames (c : ClassDecl) : List Name := c.name.val :: c.memberNames

def Program.memberNames (p : Program) : List Name := p.classes.flatMap ClassDecl.memberNames

def Program.declaredNames (p : Program) : List Name := p.classes.flatMap ClassDecl.declaredNames

theorem ClassDecl.memberNames_unmark (c : ClassDecl) : c.unmark.memberNames = c.memberNames := by
  show _ ++ (c.methods.map Method.unmark).flatMap Method.declaredNames = _
  rw [List.flatMap_map]
  rfl

namespace Program

theorem memberNames_unmark (p : Program) : p.unmark.memberNames = p.memberNames := by
  show (p.classes.map ClassDecl.unmark).flatMap ClassDecl.memberNames = _
  rw [List.flatMap_map]
  exact congrArg (p.classes.flatMap ·) (funext ClassDecl.memberNames_unmark)

theorem declaredNames_unmark (p : Program) : p.unmark.declaredNames = p.declaredNames := by
  show (p.classes.map ClassDecl.unmark).flatMap ClassDecl.declaredNames = _
  rw [List.flatMap_map]
  exact congrArg (p.classes.flatMap ·) (funext fun c => congrArg (c.name.val :: ·) c.memberNames_unmark)

theorem memberNames_subset (p : Program) : p.memberNames ⊆ p.declaredNames := fun x hx => by
  obtain ⟨c, hc, hx⟩ := List.mem_flatMap.1 hx
  exact List.mem_flatMap.2 ⟨c, hc, List.mem_cons_of_mem _ hx⟩

end Program

/-! ## In the grammar -/

namespace Grammar

/-- The name is an identifier among the tokens. -/
def Spelled (ts : Tokens) (x : Name) : Prop := .ident x ∈ ts.map (·.val)

theorem Spelled.mono {ts us : Tokens} {x : Name} (h : Spelled ts x) (hsub : ts ⊆ us) : Spelled us x :=
  List.map_subset _ hsub h

theorem Id.spelled {ts : Tokens} {x : Located Name} (h : Id ts x) : Spelled ts x.val := by
  cases h
  exact List.mem_singleton_self _

theorem Decl.spelled {ts : Tokens} {d : Declaration} (h : Decl ts d) : Spelled ts d.name.val := by
  cases h with | intro _ hname => exact hname.spelled.mono (List.subset_append_right _ _)

theorem VarDecl.spelled {ts : Tokens} {d : Declaration} (h : VarDecl ts d) : Spelled ts d.name.val := by
  cases h with | intro hd => exact hd.spelled.mono (List.subset_append_left _ _)

section

variable {α : Type} {R : Tokens → α → Prop} {names : α → List Name}
  (hR : ∀ ts a, R ts a → ∀ x ∈ names a, Spelled ts x)

include hR

theorem Star.spelled {ts : Tokens} {as : List α} (h : Star R ts as) : ∀ x ∈ as.flatMap names, Spelled ts x := by
  induction h with
  | nil => nofun
  | cons ha _ ih =>
    rw [List.flatMap_cons]
    refine List.forall_mem_append.2 ⟨fun x hx => ?_, fun x hx => ?_⟩
    · exact (hR _ _ ha x hx).mono (List.subset_append_left _ _)
    · exact (ih x hx).mono (List.subset_append_right _ _)

theorem Commas.spelled {ts : Tokens} {as : List α} (h : Commas R ts as) : ∀ x ∈ as.flatMap names, Spelled ts x := by
  induction h with
  | nil => nofun
  | cons ha _ ih =>
    rw [List.flatMap_cons]
    refine List.forall_mem_append.2 ⟨fun x hx => ?_, fun x hx => ?_⟩
    · exact (hR _ _ ha x hx).mono (List.Subset.trans (List.subset_cons_self _ _) (List.subset_append_left _ _))
    · exact (ih x hx).mono (List.subset_append_right _ _)

theorem Separated.spelled {ts : Tokens} {as : List α} (h : Separated R ts as) : ∀ x ∈ as.flatMap names, Spelled ts x := by
  cases h with
  | nil => nofun
  | cons ha has =>
    rw [List.flatMap_cons]
    refine List.forall_mem_append.2 ⟨fun x hx => ?_, fun x hx => ?_⟩
    · exact (hR _ _ ha x hx).mono (List.subset_append_left _ _)
    · exact (has.spelled hR x hx).mono (List.subset_append_right _ _)

end

theorem MethodDecl.spelled {ts : Tokens} {m : Method} (h : MethodDecl ts m) : ∀ x ∈ m.declaredNames, Spelled ts x := by
  cases h with
  | @intro s _ _ ts₀ ns fs bs ls ss es zs _ _ formals locals _ _ _ hname hformals _ hlocals _ _ _ =>
    have hf : ∀ x ∈ formals.flatMap (fun d => [d.name.val]), Spelled fs x :=
      hformals.spelled fun _ _ hd => List.forall_mem_singleton.2 hd.spelled
    have hl : ∀ x ∈ locals.flatMap (fun d => [d.name.val]), Spelled ls x :=
      hlocals.spelled fun _ _ hd => List.forall_mem_singleton.2 hd.spelled
    rw [← List.map_eq_flatMap] at hf hl
    rw [Method.declaredNames, List.map_append]
    refine List.forall_mem_cons.2 ⟨hname.spelled.mono fun t ht => ?_, List.forall_mem_append.2
      ⟨fun x hx => (hf x hx).mono fun t ht => ?_, fun x hx => (hl x hx).mono fun t ht => ?_⟩⟩ <;> simp [ht]

theorem Class.spelled {ts : Tokens} {c : ClassDecl} (h : Class ts c) : ∀ x ∈ c.declaredNames, Spelled ts x := by
  cases h with
  | @intro _ _ _ ns ps fs ms _ _ fields methods hname _ hfields hmethods =>
    have hf : ∀ x ∈ fields.flatMap (fun d => [d.name.val]), Spelled fs x :=
      hfields.spelled fun _ _ hd => List.forall_mem_singleton.2 hd.spelled
    have hm : ∀ x ∈ methods.flatMap Method.declaredNames, Spelled ms x :=
      hmethods.spelled fun _ _ h => h.spelled
    rw [← List.map_eq_flatMap] at hf
    refine List.forall_mem_cons.2 ⟨hname.spelled.mono fun t ht => ?_, List.forall_mem_append.2
      ⟨fun x hx => (hf x hx).mono fun t ht => ?_,
        fun x hx => (hm x hx).mono fun t ht => ?_⟩⟩ <;> simp [ht]

theorem Goal.spelled {ts : Tokens} {p : Program} (h : Goal ts p) : ∀ x ∈ p.declaredNames, Spelled ts x := by
  cases h with
  | @intro _ us _ classes _ hclasses =>
    have hc : ∀ x ∈ classes.flatMap ClassDecl.declaredNames, Spelled us x := hclasses.spelled fun _ _ h => h.spelled
    exact fun x hx => (hc x hx).mono (List.subset_append_right _ _)

theorem Goal.main_spelled {ts : Tokens} {p : Program} (h : Goal ts p) : Spelled ts p.main.name.val := by
  cases h with
  | intro hmain _ =>
    cases hmain with
    | intro hname _ _ _ _ _ => exact hname.spelled.mono fun t ht => by simp [ht]

end Grammar

/-- **A text spells the programs that its tokens yield.** -/
theorem Source.program_eq_ok {s : Source} {p : Program} :
    s.program.result = .ok p ↔ ∃ ts, s.tokens.result = .ok ts ∧ Grammar.Goal ts p := by
  simp only [program, Logged.result_bind, Logged.result_mapError, Logged.result_ofExcept, bind_eq_ok, mapError_eq_ok,
    Program.parse_eq_ok]

/-- A program that is read from a text is the yield of tokens, and the names among these can come from the lexer. -/
theorem Source.exists_goal_of_program {s : Source} {p : Program} (h : s.program.result = .ok p) :
    ∃ ts, Grammar.Goal ts p ∧ ∀ x, Grammar.Spelled ts x → IsIdentifier x := by
  obtain ⟨ts, hts, hp⟩ := program_eq_ok.1 h
  refine ⟨ts, hp, fun x hx => ?_⟩
  obtain ⟨t, ht, htx⟩ := List.mem_map.1 hx
  have hlexical := Source.lexical_of_tokens hts t ht
  rwa [htx] at hlexical

/-- **The declared names of a program that is read from a text are identifiers.** -/
theorem Source.identifiers_of_program {s : Source} {p : Program} (h : s.program.result = .ok p) :
    ∀ x ∈ p.declaredNames, IsIdentifier x := by
  obtain ⟨ts, hp, hspelled⟩ := exists_goal_of_program h
  exact fun x hx => hspelled x (hp.spelled x hx)

/-- The names of all classes are, with that of the main class. -/
theorem Source.identifiers_of_classes {s : Source} {p : Program} (h : s.program.result = .ok p) :
    ∀ x ∈ p.main.name.val :: p.classes.map (·.name.val), IsIdentifier x := by
  obtain ⟨ts, hp, hspelled⟩ := exists_goal_of_program h
  refine List.forall_mem_cons.2 ⟨hspelled _ hp.main_spelled, List.forall_mem_map.2 fun c hc => ?_⟩
  exact hspelled _ (hp.spelled _ (List.mem_flatMap.2 ⟨c, hc, List.mem_cons_self⟩))

end MiniJava
