import Mathlib
import MiniJava.Proofs.CUnit.Scopes
/-!
# Reserved words of C

The names of a program are not the keywords of its own language, but they may be those of C.  At file scope this does no
harm, and among members, parameters and variables the underscore in front keeps most of them apart.  Two kinds of names
slip through: the tag of a class is the bare name of the class, and with its underscore a name such as `Bool` is one of
those keywords of C that begin with an underscore themselves.  Just these are the reserved words in a unit
(`reserved_iff`).
-/
namespace MiniJava

open CUnit

namespace CUnit

/-- The keywords of C. -/
def reservedWords : List String :=
  ["auto", "break", "case", "char", "const", "continue", "default", "do", "double", "else", "enum", "extern", "float", "for",
    "goto", "if", "inline", "int", "long", "register", "restrict", "return", "short", "signed", "sizeof", "static", "struct",
    "switch", "typedef", "union", "unsigned", "void", "volatile", "while", "_Alignas", "_Alignof", "_Atomic", "_Bool",
    "_Complex", "_Generic", "_Imaginary", "_Noreturn", "_Static_assert", "_Thread_local"]

/-- The members of the structures and the parameters and variables of the functions. -/
def localDeclarators (u : CUnit) : List Declarator :=
  runtimeHeader ++ u.layouts.flatMap Layout.members ++ u.vtables.flatMap Vtable.members
    ++ u.functions.flatMap (fun f => f.frameMembers ++ (f.receiver :: f.parameters ++ f.ownVariables)) ++ u.main.ownVariables

/-- All that a unit declares. -/
def identifiers (u : CUnit) : List String := u.fileNames ++ u.tags ++ u.localDeclarators.map (·.name)

/-- The names of the program behind the members, parameters and variables. -/
def memberNames (u : CUnit) : List Name :=
  u.layouts.flatMap (fun l => l.fields.map Prod.fst) ++ u.vtables.flatMap (fun v => v.slots.map (·.method))
    ++ u.functions.flatMap fun f => f.locals.map Prod.fst ++ f.formals.map Prod.fst

/-! ## Reserved words at file scope and among tags -/

/-- A reserved word has one part, or its first part is empty. -/
theorem symbolParts_reserved : ∀ w ∈ reservedWords, symbolParts w = [w] ∨ (symbolParts w).head? = some "" := by
  decide

theorem globalPart_reserved : ∀ w ∈ reservedWords, w.toList.head? ≠ some '_' → globalPart w = w := by
  decide

section

variable {u : CUnit} (h : u.Regular)

include h

theorem Regular.class_ne {c : Name} (hc : c ∈ u.layouts.map (·.cls)) : c ≠ "" := by
  obtain ⟨l, hl, rfl⟩ := List.mem_map.1 hc
  exact fun heq => absurd (heq ▸ h.classNames l hl) (by decide)

theorem Regular.head?_fileParts : ∀ parts ∈ u.fileParts, parts.head? ≠ some "" := by
  have hclass := fun c hc => @Regular.class_ne u h c hc
  refine List.forall_mem_append.2 ⟨List.forall_mem_append.2 ⟨List.forall_mem_append.2 ⟨by decide, ?_⟩, ?_⟩, ?_⟩
  · exact List.forall_mem_map.2 fun l hl heq => hclass _ (List.mem_map_of_mem hl) (Option.some.inj heq)
  · exact List.forall_mem_map.2 fun v hv heq => hclass _ (h.vtables ▸ List.mem_map_of_mem hv) (Option.some.inj heq)
  · intro parts hparts
    obtain ⟨f, hf, hparts⟩ := List.mem_flatMap.1 hparts
    have hne := hclass _ (h.functionNames f hf).1
    simp only [functionParts, List.mem_cons, List.not_mem_nil, or_false] at hparts
    rcases hparts with rfl | rfl | rfl <;> exact fun heq => hne (Option.some.inj heq)

theorem Regular.head?_tagParts : ∀ parts ∈ u.tagParts, parts.head? ≠ some "" := by
  have hclass := fun c hc => @Regular.class_ne u h c hc
  refine List.forall_mem_append.2 ⟨List.forall_mem_append.2 ⟨List.forall_mem_append.2 ⟨by decide, ?_⟩, ?_⟩, ?_⟩
  · exact List.forall_mem_map.2 fun l hl heq => hclass _ (List.mem_map_of_mem hl) (Option.some.inj heq)
  · exact List.forall_mem_map.2 fun l hl heq => hclass _ (List.mem_map_of_mem hl) (Option.some.inj heq)
  · exact List.forall_mem_map.2 fun f hf heq => hclass _ (h.functionNames f hf).1 (Option.some.inj heq)

/-- **No function, table, size or map has a reserved word for its name.** -/
theorem Regular.not_reserved_of_mem_fileNames : ∀ s ∈ u.fileNames, s ∉ reservedWords := by
  intro s hs hw
  have hparts : symbolParts s ∈ u.fileParts := h.symbolParts_fileNames ▸ List.mem_map_of_mem hs
  rcases symbolParts_reserved s hw with hone | hempty
  · rw [hone] at hparts
    have hprev : s = "prev" := by simpa [fileParts, functionParts] using hparts
    exact absurd (hprev ▸ hw) (by decide)
  · exact h.head?_fileParts _ hparts hempty

/-- **A tag is a reserved word just if a class has that name.** -/
theorem Regular.mem_tags_iff {w : String} (hw : w ∈ reservedWords) : w ∈ u.tags ↔ w ∈ u.layouts.map (·.cls) := by
  constructor
  · intro htag
    have hparts : symbolParts w ∈ u.tagParts := h.symbolParts_tags ▸ List.mem_map_of_mem htag
    rcases symbolParts_reserved w hw with hone | hempty
    · rw [hone] at hparts
      simpa [tagParts] using hparts
    · exact absurd hempty (h.head?_tagParts _ hparts)
  · intro hclass
    obtain ⟨l, hl, rfl⟩ := List.mem_map.1 hclass
    have htag : globalPart l.cls ∈ u.tags := by
      simp only [tags, List.mem_append]
      exact .inl (.inl (.inr (List.mem_map_of_mem hl)))
    rwa [globalPart_reserved _ hw (h.classNames l hl).head?_ne] at htag

end

/-! ## Reserved words among members and variables -/

variable {w : String} (hw : w ∈ reservedWords)

include hw

theorem notMem_temps (ts : List Nat) : w ∉ ts.map tempName := fun hmem => by
  have htake : ∀ w ∈ reservedWords, w.toList.take 2 ≠ ['_', '_'] := by decide
  obtain ⟨n, -, rfl⟩ := List.mem_map.1 hmem
  refine htake _ hw ?_
  rw [toList_tempName]
  rfl

/-- Members of a structure of its own that are not reserved, and then those of the program. -/
theorem mem_members_iff {fixed : List String} (hfixed : ∀ s ∈ fixed, s ∉ reservedWords) {xs : List Name} :
    w ∈ fixed ++ xs.map memberName ↔ ∃ x ∈ xs, memberName x = w := by
  rw [List.mem_append, List.mem_map, or_iff_right fun hmem => hfixed w hmem hw]

theorem mem_functionNames_iff (f : Function) :
    w ∈ (f.frameMembers ++ (f.receiver :: f.parameters ++ f.ownVariables)).map (·.name) ↔
      ∃ x ∈ f.locals.map Prod.fst ++ f.formals.map Prod.fst, memberName x = w := by
  have hown : w ∉ "__frame" :: (f.temps.map Prod.fst).map tempName ++ ["__result"] := by
    have htemps := notMem_temps hw (f.temps.map Prod.fst)
    simp only [List.mem_append, List.mem_cons, List.not_mem_nil, or_false, htemps]
    rintro (rfl | rfl) <;> exact absurd hw (by decide)
  have hframe : w ∈ f.frameMembers.map (·.name) ↔ ∃ x ∈ f.locals.map Prod.fst, memberName x = w := by
    rw [f.names_frameMembers, mem_members_iff hw (by decide)]
  have hvariables : w ∈ (f.receiver :: f.parameters ++ f.ownVariables).map (·.name) ↔
      ∃ x ∈ f.formals.map Prod.fst, memberName x = w := by
    rw [f.names_variables, List.mem_append, or_iff_left hown]
    exact @mem_members_iff w hw ["this"] (by decide) _
  rw [List.map_append, List.mem_append, hframe, hvariables]
  simp only [List.mem_append, or_and_right, exists_or]

omit hw in
/-- The same for lists of structures or functions. -/
theorem mem_names_flatMap_iff {α : Type} {as : List α} {declares : α → List Declarator} {names : α → List Name}
    (h : ∀ a, w ∈ (declares a).map (·.name) ↔ ∃ x ∈ names a, memberName x = w) :
    w ∈ (as.flatMap declares).map (·.name) ↔ ∃ x ∈ as.flatMap names, memberName x = w := by
  simp only [List.map_flatMap, List.mem_flatMap, h]
  exact ⟨fun ⟨a, ha, x, hx, heq⟩ => ⟨x, ⟨a, ha, hx⟩, heq⟩, fun ⟨x, ⟨a, ha, hx⟩, heq⟩ => ⟨a, ha, x, hx, heq⟩⟩

/-- **A member, parameter or variable is a reserved word just if a name of the program is one with its underscore.** -/
theorem mem_localNames_iff (u : CUnit) :
    w ∈ u.localDeclarators.map (·.name) ↔ ∃ x ∈ u.memberNames, memberName x = w := by
  have hheader : w ∉ runtimeHeader.map (·.name) := fun hmem => by
    have hfixed : ∀ s ∈ runtimeHeader.map (·.name), s ∉ reservedWords := by decide
    exact hfixed w hmem hw
  have hmain : w ∉ u.main.ownVariables.map (·.name) := by
    rw [MainFunction.ownVariables, names_ofTemp]
    exact notMem_temps hw _
  have hlayout : ∀ l : Layout, w ∈ l.members.map (·.name) ↔ ∃ x ∈ l.fields.map Prod.fst, memberName x = w := fun l => by
    rw [l.names_members, mem_members_iff hw (by decide)]
  have htable : ∀ v : Vtable, w ∈ v.members.map (·.name) ↔ ∃ x ∈ v.slots.map (·.method), memberName x = w := fun v => by
    rw [v.names_members, mem_members_iff hw (by decide)]
  simp only [localDeclarators, memberNames, List.map_append, List.mem_append, hheader, hmain, mem_names_flatMap_iff hlayout,
    mem_names_flatMap_iff htable, mem_names_flatMap_iff (mem_functionNames_iff hw), false_or, or_false, or_and_right,
    exists_or]

end CUnit

/-! ## The names of the program -/

theorem mem_fields_shapeOf {c x : Name} {line : List ClassDecl} :
    x ∈ (shapeOf c line).1.fields.map Prod.fst ↔ ∃ d ∈ line, x ∈ d.fields.map (·.name.val) := by
  have hkeys : x ∈ (layoutOf line).keys ↔ _ := Table.mem_keys_ofList
  rw [List.map_map, List.map_flatMap, List.mem_flatMap] at hkeys
  exact hkeys

namespace Program.Declarations

variable {p : Program} {t : ClassTable} (h : p.Declarations t)

include h

/-- A class stands in its own line. -/
theorem mem_line {c : ClassDecl} (hc : c ∈ p.classes) {line : List ClassDecl} (hl : p.LineOf t c.name.val line) :
    c ∈ line := by
  obtain ⟨l, hline⟩ := h.lines c hc
  have hself : c.name.val ∈ t.ancestors c.name.val := by
    rw [h.ancestors_eq hc hline]
    cases hline <;> exact List.mem_cons_self
  rw [hl.names, List.map_reverse, List.mem_reverse] at hself
  obtain ⟨d, hd, hname⟩ := List.mem_map.1 hself
  exact List.inj_on_of_nodup_map h.class_distinct (hl.declared d hd) hc hname ▸ hd

theorem mem_methods_shapeOf {c x : Name} {line : List ClassDecl} (hl : p.LineOf t c line) :
    x ∈ (shapeOf c line).2.slots.map (·.method) ↔ ∃ d ∈ line, x ∈ d.methods.map (·.name.val) := by
  have hkeys : x ∈ (slotsOf line).keys ↔ _ := Table.mem_keys_ofList
  rw [List.map_flatMap, List.mem_flatMap] at hkeys
  simp only [List.map_map] at hkeys
  rw [h.methods_shapeOf hl]
  exact hkeys

/-- **The members, parameters and variables of a unit come from those of the program**, and all of these are there. -/
theorem mem_memberNames_iff {u : CUnit} (hu : (lowerProgram p).result = .ok u) {x : Name} :
    x ∈ u.memberNames ↔ x ∈ p.memberNames := by
  obtain ⟨hlayouts, hvtables⟩ := exists_line_of_mem h hu
  obtain ⟨-, -, hshapes⟩ := h.shapes_of_lowerProgram hu
  obtain ⟨hfunctions, -⟩ := functions_of_lowerProgram hu
  have hvariables : ∀ {c : Name} {m : Method} {f : Function}, Defines c m f →
      (x ∈ f.locals.map Prod.fst ++ f.formals.map Prod.fst ↔ x ∈ (m.formals ++ m.locals).map (·.name.val)) := fun {c m f} hf => by
    rw [hf.formals, hf.locals, List.map_map, List.map_map, List.mem_append, List.map_append, List.mem_append, or_comm]
    rfl
  simp only [CUnit.memberNames, Program.memberNames, ClassDecl.memberNames, List.mem_append, List.mem_flatMap,
    Method.declaredNames, List.mem_cons]
  constructor
  · rintro ((⟨l, hl, hx⟩ | ⟨v, hv, hx⟩) | ⟨f, hf, hx⟩)
    · obtain ⟨c, -, line, hline, rfl⟩ := hlayouts l hl
      obtain ⟨d, hd, hx⟩ := mem_fields_shapeOf.1 hx
      exact ⟨d, hline.declared d hd, .inl hx⟩
    · obtain ⟨c, -, line, hline, rfl⟩ := hvtables v hv
      obtain ⟨d, hd, hx⟩ := (h.mem_methods_shapeOf hline).1 hx
      obtain ⟨m, hm, rfl⟩ := List.mem_map.1 hx
      exact ⟨d, hline.declared d hd, .inr ⟨m, hm, .inl rfl⟩⟩
    · obtain ⟨c, hc, m, hm, hdefine⟩ := hfunctions f hf
      exact ⟨c, hc, .inr ⟨m, hm, .inr ((hvariables hdefine).1 (List.mem_append.2 hx))⟩⟩
  · rintro ⟨c, hc, hx⟩
    obtain ⟨line, hline, hlayout, hvtable⟩ := hshapes c hc
    have hmem := h.mem_line hc hline
    rcases hx with hx | ⟨m, hm, rfl | hx⟩
    · exact .inl (.inl ⟨_, List.mem_of_find?_eq_some hlayout, mem_fields_shapeOf.2 ⟨c, hmem, hx⟩⟩)
    · exact .inl (.inr ⟨_, List.mem_of_find?_eq_some hvtable,
        (h.mem_methods_shapeOf hline).2 ⟨c, hmem, List.mem_map_of_mem hm⟩⟩)
    · obtain ⟨f, hf, hdefine⟩ := exists_function_of_mem hu hc hm
      exact .inr ⟨f, hf, List.mem_append.1 ((hvariables hdefine).2 hx)⟩

end Program.Declarations

/-! ## Units of texts -/

theorem result_cUnit {s : Source} {dump : Dump} {p : Program} {e : Elaborated} {u : CUnit} (hp : s.program.result = .ok p)
    (he : (p.elaborate dump).result = .ok e) (hu : (lowerProgram e.program).result = .ok u) :
    (s.cUnit dump).result = .ok u :=
  Source.cUnit_eq_ok.2 ⟨e, Source.elaborated_eq_ok.2 ⟨p, hp, he⟩, hu⟩

/-- **A keyword of C is a name in a unit just if a class has that name or a member has it with its underscore.** -/
theorem mem_identifiers_iff {e : Elaborated} (h : e.Sound) (hnames : ∀ x ∈ e.program.declaredNames, IsIdentifier x) {u : CUnit}
    (hu : (lowerProgram e.program).result = .ok u) {w : String} (hw : w ∈ reservedWords) : w ∈ u.identifiers ↔
      w ∈ e.program.classes.map (·.name.val) ∨ ∃ x ∈ e.program.memberNames, memberName x = w := by
  obtain ⟨hlayouts, -, -⟩ := h.declarations.shapes_of_lowerProgram hu
  have hregular := regular_of_lowerProgram h hnames hu
  have hfile : w ∉ u.fileNames := fun hmem => hregular.not_reserved_of_mem_fileNames w hmem hw
  simp only [identifiers, List.mem_append, hfile, false_or, hregular.mem_tags_iff hw, hlayouts, mem_localNames_iff hw,
    h.declarations.mem_memberNames_iff hu]

/-- **Which names of a unit are reserved words of C.**  Whatever the text, if it spells a program that is elaborated, it has
a unit, and a keyword of C is a name in the unit just if a class of the program has that name, or a field, a method, a
formal or a local has the name that becomes the keyword with its underscore.  So all names of the unit are legal just if
the program has no such names. -/
theorem reserved_iff (s : Source) (dump : Dump) (p : Program) (e : Elaborated) (hp : s.program.result = .ok p)
    (he : (p.elaborate dump).result = .ok e) : ∃ u, (s.cUnit dump).result = .ok u ∧
      (∀ w ∈ reservedWords, w ∈ u.identifiers ↔
        w ∈ p.classes.map (·.name.val) ∨ ∃ x ∈ p.memberNames, memberName x = w) ∧
      ((∀ name ∈ u.identifiers, name ∉ reservedWords) ↔
        (∀ c ∈ p.classes, c.name.val ∉ reservedWords) ∧ ∀ x ∈ p.memberNames, memberName x ∉ reservedWords) := by
  obtain ⟨hsound, hunmark⟩ := elaborate_sound he
  obtain ⟨u, hu⟩ := lowerProgram_total hsound
  have hnames : ∀ x ∈ e.program.declaredNames, IsIdentifier x := by
    rw [← Program.declaredNames_unmark, hunmark, Program.declaredNames_unmark]
    exact Source.identifiers_of_program hp
  have hwords : ∀ w ∈ reservedWords, w ∈ u.identifiers ↔
      w ∈ p.classes.map (·.name.val) ∨ ∃ x ∈ p.memberNames, memberName x = w := fun w hw => by
    rw [mem_identifiers_iff hsound hnames hu hw, ← Program.classNames_unmark, ← Program.memberNames_unmark, hunmark,
      Program.classNames_unmark, Program.memberNames_unmark]
  refine ⟨u, result_cUnit hp he hu, hwords, ⟨fun h => ⟨fun c hc hw => ?_, fun x hx hw => ?_⟩, ?_⟩⟩
  · exact h _ ((hwords _ hw).2 (.inl (List.mem_map_of_mem hc))) hw
  · exact h _ ((hwords _ hw).2 (.inr ⟨x, hx, rfl⟩)) hw
  · intro ⟨hc, hx⟩ name hname hw
    rcases (hwords name hw).1 hname with hclass | ⟨x, hmem, rfl⟩
    · obtain ⟨c, hmem, rfl⟩ := List.mem_map.1 hclass
      exact hc c hmem hw
    · exact hx x hmem hw

namespace Sample

/-- A class and a field with names that are those of keywords of C. -/
def reserved : Source := .ofText "<sample>"
  "class Main { public static void main(String[] args) { System.out.println(0); } } class double { int Bool; }"

/-- Its program, and names in its unit. -/
theorem exists_unit_reserved : ∃ p e u, reserved.program.result = .ok p ∧ (p.elaborate ⟨false, false⟩).result = .ok e ∧
    (lowerProgram e.program).result = .ok u ∧ p.classes.map (·.name.val) = ["double"] ∧ p.memberNames = ["Bool"] ∧
    "double" ∈ u.tags ∧ "_Bool" ∈ u.localDeclarators.map (·.name) :=
  ⟨_, _, _, by cbv, by rfl, by rfl, by rfl, by rfl, by decide, by decide⟩

end Sample

/-- What the names of the class and its field become. -/
theorem reserved_iff_on_sample : ∃ p e u, Sample.reserved.program.result = .ok p ∧
    (p.elaborate ⟨false, false⟩).result = .ok e ∧ (Sample.reserved.cUnit ⟨false, false⟩).result = .ok u ∧
    p.classes.map (·.name.val) = ["double"] ∧ p.memberNames = ["Bool"] ∧
    ∀ w ∈ reservedWords, w ∈ u.identifiers ↔ w = "double" ∨ w = "_Bool" := by
  obtain ⟨p, e, -, hp, he, -, hclasses, hmembers, -⟩ := Sample.exists_unit_reserved
  obtain ⟨u, hu, hwords, -⟩ := reserved_iff Sample.reserved ⟨false, false⟩ p e hp he
  refine ⟨p, e, u, hp, he, hu, hclasses, hmembers, fun w hw => ?_⟩
  have hmember : memberName "Bool" = "_Bool" := by decide
  rw [hwords w hw, hclasses, hmembers]
  simp only [List.mem_singleton, exists_eq_left, hmember, @eq_comm String w]

/-- The tag of the class and the member of its field are keywords of C. -/
theorem exists_reserved_name : ∃ u, (Sample.reserved.cUnit ⟨false, false⟩).result = .ok u ∧
    "double" ∈ reservedWords ∧ "double" ∈ u.tags ∧ "_Bool" ∈ reservedWords ∧ "_Bool" ∈ u.localDeclarators.map (·.name) := by
  obtain ⟨p, e, u, hp, he, hu, -, -, htag, hmember⟩ := Sample.exists_unit_reserved
  exact ⟨u, result_cUnit hp he hu, by decide, htag, by decide, hmember⟩

end MiniJava
