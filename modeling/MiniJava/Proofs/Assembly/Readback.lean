import MiniJava.Compile
import MiniJava.Proofs.Assembly.Lines
import MiniJava.Proofs.Typing.Programs
/-!
# Listings are told by their text

A listing is a row of lines, and its text shows where each of them ends.  So does every part of a listing: an
instruction has one line or three, which its first line tells, a method goes up to its end mark, and the fields go up to
the first empty line.  Any number of parts that each show where they end are told from the row of them, as long as what
comes after them can be no further part (`flatMap_append_inj`).  So no two listings with identifiers for names have the
same text (`text_determines_listing`).
-/
namespace MiniJava

open Assembly

/-- **Rows of parts.**  If each part shows where it ends, and what follows the parts is no part, then a row shows its
parts and what follows. -/
theorem flatMap_append_inj {α β : Type} {f : α → List β} {P : α → Prop} {Stops : List β → Prop}
    (hpart : ∀ a b xs ys, P a → P b → f a ++ xs = f b ++ ys → a = b ∧ xs = ys)
    (hstop : ∀ a xs ys, P a → Stops ys → f a ++ xs ≠ ys) {xs ys : List β} (hxs : Stops xs) (hys : Stops ys) :
    ∀ {as bs : List α}, (∀ a ∈ as, P a) → (∀ b ∈ bs, P b) → as.flatMap f ++ xs = bs.flatMap f ++ ys → as = bs ∧ xs = ys
  | [], [], _, _, h => ⟨rfl, h⟩
  | [], b :: bs, _, hbs, h => by
    rw [List.flatMap_cons, List.append_assoc] at h
    exact absurd h.symm (hstop b _ _ (List.forall_mem_cons.1 hbs).1 hxs)
  | a :: as, [], has, _, h => by
    rw [List.flatMap_cons, List.append_assoc] at h
    exact absurd h (hstop a _ _ (List.forall_mem_cons.1 has).1 hys)
  | a :: as, b :: bs, has, hbs, h => by
    obtain ⟨ha, has'⟩ := List.forall_mem_cons.1 has
    obtain ⟨hb, hbs'⟩ := List.forall_mem_cons.1 hbs
    rw [List.flatMap_cons, List.flatMap_cons, List.append_assoc, List.append_assoc] at h
    obtain ⟨rfl, hrest⟩ := hpart a b _ _ ha hb h
    obtain ⟨rfl, rfl⟩ := flatMap_append_inj hpart hstop hxs hys has' hbs' hrest
    exact ⟨rfl, rfl⟩

namespace Assembly

/-! ## Code -/

/-- A line that is the first of no instruction. -/
def EndsCode (line : String) : Prop := ∀ i : Instr, i.line ≠ line

theorem endsCode_endMethod : EndsCode ".end method" := fun i h => by
  have hhead : i.line.toList.head? = some '.' := by
    rw [h]
    decide
  rcases i.line_eq_or with ⟨l, rfl⟩ | hline
  · rw [Instr.head?_line_label] at hhead
    cases hhead
  · rw [hline, Operation.head?_line] at hhead
    cases hhead

/-- Code ends at `return`, which is no instruction but belongs to the main class. -/
theorem endsCode_return : EndsCode (bare "return") := fun i h => by
  rcases i.line_eq_or with ⟨l, rfl⟩ | hline
  · exact Instr.label_line_ne l ⟨"return", none⟩ h
  · have hfits : Operation.Fits ⟨"return", none⟩ := ⟨List.all_eq_true.1 (by decide), by decide⟩
    have hopcode := (Operation.line_inj i.fits_operation hfits (hline.symm.trans h)).1
    cases i <;> simp [Instr.operation] at hopcode

/-- **Code is told by its lines, and shows where it ends.** -/
theorem codeLines_append_inj {code code' : List Instr} {last : String} {xs ys : List String}
    (hcode : ∀ i ∈ code, i.Lexical) (hcode' : ∀ i ∈ code', i.Lexical) (hlast : EndsCode last)
    (h : codeLines code ++ last :: xs = codeLines code' ++ last :: ys) : code = code' ∧ xs = ys := by
  have hstop : ∀ (i : Instr) (zs ws : List String), i.Lexical → ws.head? = some last → i.lines ++ zs ≠ ws := by
    rintro i zs _ - hhead rfl
    rw [i.lines_eq_cons] at hhead
    exact hlast i (Option.some.inj hhead)
  obtain ⟨rfl, hrest⟩ := flatMap_append_inj (fun _ _ _ _ => Instr.lines_append_inj) hstop rfl rfl hcode hcode' h
  exact ⟨rfl, (List.cons.inj hrest).2⟩

/-! ## Methods and fields -/

structure MethodListing.Lexical (m : MethodListing) : Prop where
  name : IsIdentifier m.name
  types : ∀ s ∈ m.returns :: m.formals, s.Lexical
  code : ∀ i ∈ m.code, i.Lexical

/-- **A method is told by its lines, and shows where it ends.** -/
theorem methodLines_append_inj {m m' : MethodListing} {xs ys : List String} (hm : m.Lexical) (hm' : m'.Lexical)
    (h : methodLines m ++ xs = methodLines m' ++ ys) : m = m' ∧ xs = ys := by
  obtain ⟨name, formals, returns, slots, code⟩ := m
  obtain ⟨name', formals', returns', slots', code'⟩ := m'
  simp only [methodLines, List.cons_append, List.nil_append, List.append_assoc, List.cons.injEq, String.append_assoc,
    String.append_right_inj, true_and] at h
  obtain ⟨hhead, hslots, hrest⟩ := h
  obtain ⟨rfl, rfl, rfl⟩ := name_descriptors_inj hm.name hm'.name hm.types hm'.types hhead
  obtain rfl := toString_nat_injective hslots
  obtain ⟨rfl, rfl⟩ := codeLines_append_inj hm.code hm'.code endsCode_endMethod hrest
  exact ⟨rfl, rfl⟩

/-- A field as a line. -/
def fieldLine (f : Name × Storage) : String := ".field public " ++ f.1 ++ " " ++ f.2.descriptor

/-- **Fields are told by their lines, and end at the first empty line.** -/
theorem fieldLines_append_inj {fs gs : List (Name × Storage)} {xs ys : List String}
    (hfs : ∀ f ∈ fs, IsIdentifier f.1 ∧ f.2.Lexical) (hgs : ∀ g ∈ gs, IsIdentifier g.1 ∧ g.2.Lexical)
    (h : fs.map fieldLine ++ "" :: xs = gs.map fieldLine ++ "" :: ys) : fs = gs ∧ xs = ys := by
  have hchars : ∀ f : Name × Storage,
      (fieldLine f).toList = ".field public ".toList ++ (f.1.toList ++ ' ' :: f.2.descriptor.toList) := fun f => by
    simp [fieldLine]
  have hpart : ∀ (f g : Name × Storage) (zs ws : List String), IsIdentifier f.1 ∧ f.2.Lexical →
      IsIdentifier g.1 ∧ g.2.Lexical → [fieldLine f] ++ zs = [fieldLine g] ++ ws → f = g ∧ zs = ws := by
    rintro f g zs ws ⟨hx, hs⟩ ⟨hx', hs'⟩ heq
    obtain ⟨hline, hrest⟩ := List.cons.inj heq
    have hline := congrArg String.toList hline
    rw [hchars, hchars] at hline
    obtain ⟨hname, hdescriptor⟩ := append_cons_inj (hx.not_mem rfl) (hx'.not_mem rfl) (List.append_cancel_left hline)
    have hstorage := Storage.descriptor_inj hs hs' (String.toList_inj.1 hdescriptor)
    exact ⟨Prod.ext (String.toList_inj.1 hname) hstorage, hrest⟩
  have hstop : ∀ (f : Name × Storage) (zs ws : List String), IsIdentifier f.1 ∧ f.2.Lexical → ws.head? = some "" →
      [fieldLine f] ++ zs ≠ ws := by
    rintro f zs _ - hhead rfl
    have hempty := congrArg String.toList (Option.some.inj hhead)
    rw [hchars] at hempty
    cases hempty
  rw [List.map_eq_flatMap, List.map_eq_flatMap] at h
  obtain ⟨rfl, hrest⟩ := flatMap_append_inj hpart hstop rfl rfl hfs hgs h
  exact ⟨rfl, (List.cons.inj hrest).2⟩

/-! ## Listings -/

structure ClassListing.Lexical (c : ClassListing) : Prop where
  name : IsIdentifier c.name
  parent : ∀ p ∈ c.parent, IsIdentifier p
  fields : ∀ f ∈ c.fields, IsIdentifier f.1 ∧ f.2.Lexical
  methods : ∀ m ∈ c.methods, m.Lexical

/-- **All names in the listing are ones that the lexer can produce.** -/
def Listing.Lexical : Listing → Prop
  | main name code => IsIdentifier name ∧ ∀ i ∈ code, i.Lexical
  | cls c => c.Lexical

/-- The root of all classes is no identifier, so that it stands for no class of the program. -/
theorem parent_inj {p q : Option Name} (hp : ∀ c ∈ p, IsIdentifier c) (hq : ∀ c ∈ q, IsIdentifier c)
    (h : p.getD rootClass = q.getD rootClass) : p = q := by
  have hroot : ∀ c, IsIdentifier c → rootClass ≠ c := fun c hc heq => by
    have hslash : '/' ∈ rootClass.toList := by decide
    exact (heq ▸ hc).not_mem rfl hslash
  cases p with
  | none =>
    cases q with
    | none => rfl
    | some d => exact absurd h (hroot d (hq d rfl))
  | some c =>
    cases q with
    | none => exact absurd h.symm (hroot c (hp c rfl))
    | some d => exact congrArg some h

theorem classLines_inj {c c' : ClassListing} (hc : c.Lexical) (hc' : c'.Lexical) (h : classLines c = classLines c') :
    c = c' := by
  obtain ⟨name, parent, fields, methods⟩ := c
  obtain ⟨name', parent', fields', methods'⟩ := c'
  simp only [classLines, List.cons_append, List.nil_append, List.append_assoc, List.cons.injEq,
    String.append_right_inj, true_and] at h
  obtain ⟨rfl, hparent, hmembers⟩ := h
  obtain rfl := parent_inj hc.parent hc'.parent hparent
  obtain ⟨rfl, hafter⟩ := fieldLines_append_inj hc.fields hc'.fields hmembers
  simp only [List.cons.injEq, true_and] at hafter
  have hpart : ∀ (m m' : MethodListing) (xs ys : List String), m.Lexical → m'.Lexical →
      ("" :: methodLines m) ++ xs = ("" :: methodLines m') ++ ys → m = m' ∧ xs = ys := fun _ _ _ _ hm hm' heq =>
    methodLines_append_inj hm hm' (List.cons.inj heq).2
  have hstop : ∀ (m : MethodListing) (xs ys : List String), m.Lexical → ys = [] → ("" :: methodLines m) ++ xs ≠ ys := by
    rintro m xs _ - rfl
    exact List.cons_ne_nil _ _
  have hmethods : methods.flatMap (fun m => "" :: methodLines m) ++ [] =
      methods'.flatMap (fun m => "" :: methodLines m) ++ [] := by
    rw [List.append_nil, List.append_nil, hafter]
  obtain ⟨rfl, -⟩ := flatMap_append_inj hpart hstop rfl rfl hc.methods hc'.methods hmethods
  rfl

/-- Behind the lines of its name and its parent a class has fields or an empty line, and the main class has neither. -/
theorem mainLines_ne_classLines (name : Name) (code : List Instr) (c : ClassListing) :
    mainLines name code ≠ classLines c := by
  intro h
  obtain ⟨name', parent, fields, methods⟩ := c
  simp only [mainLines, classLines, List.cons_append, List.nil_append, List.append_assoc, List.cons.injEq,
    String.append_right_inj, true_and] at h
  obtain ⟨-, -, h⟩ := h
  -- the main class goes on with `.method`, which no line of a field begins with
  cases fields with
  | nil => exact absurd (List.cons.inj h).1 (by decide)
  | cons f fields =>
    have hline := congrArg (fun s => s.toList.drop 1 |>.head?) (List.cons.inj h).1
    simp [String.toList_append] at hline

/-- **A listing is told by its lines.** -/
theorem Listing.lines_inj {l l' : Listing} (h : l.Lexical) (h' : l'.Lexical) (hlines : l.lines = l'.lines) : l = l' := by
  cases l with
  | main name code =>
    cases l' with
    | main name' code' =>
      have hmain : mainLines name code = mainLines name' code' := List.append_cancel_left hlines
      simp only [mainLines, List.cons_append, List.nil_append, List.cons.injEq, String.append_right_inj,
        true_and] at hmain
      obtain ⟨rfl, hcode⟩ := hmain
      obtain ⟨rfl, -⟩ := codeLines_append_inj h.2 h'.2 endsCode_return hcode
      rfl
    | cls c => exact absurd (List.append_cancel_left hlines) (mainLines_ne_classLines name code c)
  | cls c =>
    cases l' with
    | main name code => exact absurd (List.append_cancel_left hlines).symm (mainLines_ne_classLines name code c)
    | cls c' => exact congrArg cls (classLines_inj h h' (List.append_cancel_left hlines))

/-! ## Text -/

theorem oneLine_codeLines {code : List Instr} (h : ∀ i ∈ code, i.Lexical) : ∀ line ∈ codeLines code, OneLine line :=
  List.forall_mem_flatMap.2 fun i hi => Instr.oneLine_lines (h i hi)

theorem oneLine_methodLines {m : MethodListing} (h : m.Lexical) : ∀ line ∈ methodLines m, OneLine line := by
  have hhead : OneLine (".method public " ++ m.name ++ descriptors m.formals m.returns) :=
    (OneLine.append (by decide) h.name.oneLine).append (oneLine_descriptors h.types)
  have hslots : OneLine (".limit locals " ++ toString m.slots) := OneLine.append (by decide) (oneLine_toString m.slots)
  refine List.forall_mem_append.2 ⟨List.forall_mem_append.2 ⟨?_, oneLine_codeLines h.code⟩, by decide⟩
  simp only [List.forall_mem_cons]
  exact ⟨hhead, by decide, hslots, List.forall_mem_nil _⟩

theorem oneLine_fieldLine {f : Name × Storage} (h : IsIdentifier f.1 ∧ f.2.Lexical) : OneLine (fieldLine f) :=
  ((OneLine.append (by decide) h.1.oneLine).append (by decide)).append h.2.oneLine

theorem oneLine_classLines {c : ClassListing} (h : c.Lexical) : ∀ line ∈ classLines c, OneLine line := by
  have hparent : OneLine (c.parent.getD rootClass) := by
    cases hp : c.parent with
    | none => decide
    | some p => exact (h.parent p hp).oneLine
  refine List.forall_mem_append.2 ⟨List.forall_mem_append.2 ⟨List.forall_mem_append.2 ⟨?_, ?_⟩, ?_⟩, ?_⟩
  · simp only [List.forall_mem_cons]
    exact ⟨OneLine.append (by decide) h.name.oneLine, OneLine.append (by decide) hparent, by decide, List.forall_mem_nil _⟩
  · exact List.forall_mem_map.2 fun f hf => oneLine_fieldLine (h.fields f hf)
  · simp only [List.forall_mem_cons]
    exact ⟨by decide, by decide, by decide, oneLine_withOperand (by decide) (Instr.oneLine_constructorOf hparent),
      by decide, by decide, List.forall_mem_nil _⟩
  · exact List.forall_mem_flatMap.2 fun m hm => List.forall_mem_cons.2 ⟨by decide, oneLine_methodLines (h.methods m hm)⟩

theorem Listing.oneLine_lines {l : Listing} (h : l.Lexical) : ∀ line ∈ l.lines, OneLine line := by
  cases l with
  | main name code =>
    refine List.forall_mem_append.2 ⟨by decide, List.forall_mem_append.2 ⟨List.forall_mem_append.2 ⟨?_, ?_⟩, by decide⟩⟩
    · simp only [List.forall_mem_cons]
      exact ⟨OneLine.append (by decide) h.1.oneLine, by decide, by decide, by decide, by decide, by decide,
        List.forall_mem_nil _⟩
    · exact oneLine_codeLines h.2
  | cls c => exact List.forall_mem_append.2 ⟨by decide, oneLine_classLines h⟩

/-- **Lines are told by the text of them.** -/
theorem lines_eq_of_join_eq {ls ls' : List String} (h : ∀ l ∈ ls, OneLine l) (h' : ∀ l ∈ ls', OneLine l)
    (htext : String.join (ls.map (· ++ "\n")) = String.join (ls'.map (· ++ "\n"))) : ls = ls' := by
  have hchars : ∀ ls : List String, (String.join (ls.map (· ++ "\n"))).toList =
      ls.flatMap (fun l => l.toList ++ ['\n']) ++ [] := fun ls => by
    simp [List.flatMap_map]
  have hpart : ∀ (l m : String) (xs ys : List Char), OneLine l → OneLine m →
      l.toList ++ ['\n'] ++ xs = m.toList ++ ['\n'] ++ ys → l = m ∧ xs = ys := fun l m xs ys hl hm heq => by
    rw [List.append_assoc, List.append_assoc] at heq
    obtain ⟨hline, hrest⟩ := append_cons_inj hl hm heq
    exact ⟨String.toList_inj.1 hline, hrest⟩
  have hstop : ∀ (l : String) (xs ys : List Char), OneLine l → ys = [] → l.toList ++ ['\n'] ++ xs ≠ ys := by
    rintro l xs _ - rfl
    simp
  have heq := congrArg String.toList htext
  rw [hchars, hchars] at heq
  exact (flatMap_append_inj hpart hstop rfl rfl h h' heq).1

end Assembly

/-- **The text of a listing determines it.** -/
theorem text_determines_listing (l l' : Listing) (h : l.Lexical) (h' : l'.Lexical) (htext : l.text = l'.text) : l = l' :=
  Listing.lines_inj h h' (lines_eq_of_join_eq (Listing.oneLine_lines h) (Listing.oneLine_lines h') htext)

namespace Sample

/-- The listing of `Cell`. -/
def cellListing : Listing := .cls ⟨"Cell", none, [("held", .int)], [⟨"put", [.int], .int, 2,
  [.aload 0, .aload 0, .getfield "Cell" "held" .int, .iload 1, .iadd, .putfield "Cell" "held" .int,
    .aload 0, .getfield "Cell" "held" .int, .ireturn]⟩]⟩

theorem lexical_cellListing : cellListing.Lexical := by
  have hint : Storage.Lexical .int := fun _ h => Storage.noConfusion h
  have hheld : IsIdentifier "Cell" ∧ IsIdentifier "held" ∧ Storage.Lexical .int := ⟨by decide, by decide, hint⟩
  have hcode : ∀ i ∈ [Instr.aload 0, .aload 0, .getfield "Cell" "held" .int, .iload 1, .iadd,
      .putfield "Cell" "held" .int, .aload 0, .getfield "Cell" "held" .int, .ireturn], i.Lexical := by
    simp only [List.forall_mem_cons]
    exact ⟨trivial, trivial, hheld, trivial, trivial, hheld, trivial, hheld, trivial, List.forall_mem_nil _⟩
  have hmethod : MethodListing.Lexical ⟨"put", [.int], .int, 2, _⟩ := ⟨by decide, by simp [hint], hcode⟩
  exact ⟨by decide, by decide, List.forall_mem_singleton.2 ⟨by decide, hint⟩, List.forall_mem_singleton.2 hmethod⟩

end Sample

/-- What is made of a class has the text of the listing that is written down here, and is that listing. -/
theorem text_determines_listing_on_sample : ∃ e main made rest,
    (Sample.program.elaborate ⟨false, false⟩).result = .ok e ∧
    (lowerProgram e.program).result = .ok (main :: made :: rest) ∧ made.Lexical ∧ Sample.cellListing.Lexical ∧
    made.text = Sample.cellListing.text ∧ made = Sample.cellListing :=
  ⟨_, _, _, _, rfl, rfl, Sample.lexical_cellListing, Sample.lexical_cellListing, rfl,
    text_determines_listing _ _ Sample.lexical_cellListing Sample.lexical_cellListing rfl⟩

end MiniJava
