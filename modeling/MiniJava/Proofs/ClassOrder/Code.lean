import MiniJava.Proofs.Assembly.Renumbering
import MiniJava.Proofs.ClassOrder.Elaboration
import MiniJava.Proofs.CUnit.Shapes
/-!
# The order of the classes: code

A class has the same code in whatever order the classes are put (`compiled_alike_of_reordered`).  In a C unit it is the very
same; in listings it is the same but for the numbers of the labels, which are counted through the whole program.
-/
namespace MiniJava

/-- The functions of a class. -/
def CUnit.functionsOf (u : CUnit) (c : Name) : List Function := u.functions.filter (·.cls = c)

/-- **What two units have of a class is the same**: the one layout, the one virtual table, and the functions. -/
structure CUnit.HaveAlike (u v : CUnit) (c : Name) : Prop where
  layout : ∃ layout, u.layout? c = some layout ∧ v.layout? c = some layout
  vtable : ∃ vtable, u.vtable? c = some vtable ∧ v.vtable? c = some vtable
  functions : u.functionsOf c = v.functionsOf c

/-- The listing of a class. -/
def Assembly.listing? (ls : List Listing) (x : Name) : Option Listing := ls.find? (·.name = x)

def Program.class? (p : Program) (c : Name) : Option ClassDecl := p.classes.find? (·.name.val = c)

namespace CUnit

/-- Where the functions come class by class, those of one class stand together. -/
theorem filter_functions {cs : List ClassDecl} {fss : List (List Function)}
    (h : List.Forall₂ (fun c fs => (lowerClass c).result = .ok fs) cs fss) (hn : (cs.map (·.name.val)).Nodup) :
    ∀ c ∈ cs, (lowerClass c).result = .ok (fss.flatten.filter (·.cls = c.name.val)) := by
  have hcls : ∀ {c : ClassDecl} {fs : List Function}, (lowerClass c).result = .ok fs → ∀ f ∈ fs, f.cls = c.name.val :=
    fun hfs f hf => by
      obtain ⟨_, -, hdefines⟩ := forall₂_mem_right (lowerClass_sound hfs) f hf
      exact hdefines.cls
  induction h with
  | nil => exact fun _ hc => (List.not_mem_nil hc).elim
  | @cons c fs cs fss hfs hfss ih =>
    rw [List.map_cons, List.nodup_cons] at hn
    rw [List.flatten_cons]
    refine List.forall_mem_cons.2 ⟨?_, fun d hd => ?_⟩
    · have hown : fs.filter (·.cls = c.name.val) = fs :=
        List.filter_eq_self.2 fun f hf => decide_eq_true (hcls hfs f hf)
      have hother : fss.flatten.filter (·.cls = c.name.val) = [] := List.filter_eq_nil_iff.2 fun f hf heq => by
        obtain ⟨gs, hgs, hf⟩ := List.mem_flatten.1 hf
        obtain ⟨d, hd, hgs⟩ := forall₂_mem_right hfss gs hgs
        refine hn.1 ?_
        rw [← of_decide_eq_true heq, hcls hgs f hf]
        exact List.mem_map_of_mem hd
      rw [List.filter_append, hown, hother, List.append_nil, hfs]
    · have hother : fs.filter (·.cls = d.name.val) = [] := List.filter_eq_nil_iff.2 fun f hf heq => by
        refine hn.1 ?_
        rw [← hcls hfs f hf, of_decide_eq_true heq]
        exact List.mem_map_of_mem hd
      rw [List.filter_append, hother, List.nil_append]
      exact ih hn.2 d hd

theorem functionsOf_of_lowerProgram {p : Program} {u : CUnit} (hu : (lowerProgram p).result = .ok u)
    (hn : (p.classes.map (·.name.val)).Nodup) {c : ClassDecl} (hc : c ∈ p.classes) :
    (lowerClass c).result = .ok (u.functionsOf c.name.val) := by
  obtain ⟨_, _, _, -, hfunctions, -, rfl⟩ := lowerProgram_eq_ok.1 hu
  exact filter_functions hfunctions hn c hc

end CUnit

namespace Program

/-- Programs that differ in their marks alone have the same classes but for the marks. -/
theorem exists_class_of_unmark_eq {p q : Program} (h : q.unmark = p.unmark) {c : ClassDecl} (hc : c ∈ p.classes) :
    ∃ c' ∈ q.classes, c'.unmark = c.unmark ∧ c'.name = c.name := by
  have hmem : c.unmark ∈ q.unmark.classes := h ▸ List.mem_map_of_mem hc
  obtain ⟨c', hc', hunmark⟩ := List.mem_map.1 hmem
  exact ⟨c', hc', hunmark, congrArg (·.name) hunmark⟩

theorem class?_of_mem {p : Program} (hn : (p.classes.map (·.name.val)).Nodup) {c : ClassDecl} (hc : c ∈ p.classes) :
    p.class? c.name.val = some c := find?_key_of_mem (fun c : ClassDecl => c.name.val) hn hc

end Program

namespace Program.Reordered

variable {p q : Program} {t u : ClassTable}

theorem class?_eq (h : p.Reordered q) (hn : (p.classes.map (·.name.val)).Nodup) (c : Name) : p.class? c = q.class? c :=
  find?_key_perm (fun d : ClassDecl => d.name.val) h.classes hn c

theorem classIndex_get? (h : p.Reordered q) (ht : p.Declarations t) (hu : q.Declarations u) (c : Name) :
    p.classIndex.get? c = q.classIndex.get? c := by
  refine Option.ext fun d => ?_
  rw [ht.classIndex_eq_some_iff, hu.classIndex_eq_some_iff, h.classes.mem_iff]

theorem lineage_eq (h : p.Reordered q) (ht : p.Declarations t) (hu : q.Declarations u) (c : Name) :
    lineage p.classIndex c = lineage q.classIndex c := by
  refine lineage_congr (h.classIndex_get? ht hu) ?_ c
  have hlength := (h.classes.map fun d => d.name.val).length_eq
  rw [← ht.keys_classIndex, ← hu.keys_classIndex, Table.keys, Table.keys, List.length_map, List.length_map] at hlength
  exact hlength

/-! ## C units -/

/-- **The C units of reordered programs have the same main function, and of each class the same.** -/
theorem cUnit_alike (h : p.Reordered q) (ht : p.Declarations t) (hu : q.Declarations u) {v w : CUnit}
    (hv : (CUnit.lowerProgram p).result = .ok v) (hw : (CUnit.lowerProgram q).result = .ok w) :
    v.main = w.main ∧ ∀ c ∈ p.classes, v.HaveAlike w c.name.val := by
  constructor
  · obtain ⟨_, _, main, -, -, hmain, rfl⟩ := CUnit.lowerProgram_eq_ok.1 hv
    obtain ⟨_, _, main', -, -, hmain', rfl⟩ := CUnit.lowerProgram_eq_ok.1 hw
    rw [h.main, hmain'] at hmain
    exact (Except.ok.inj hmain).symm
  · intro c hc
    have hc' := h.classes.mem_iff.1 hc
    obtain ⟨line, hline, hlayout, hvtable⟩ := (ht.shapes_of_lowerProgram hv).2.2 c hc
    obtain ⟨line', hline', hlayout', hvtable'⟩ := (hu.shapes_of_lowerProgram hw).2.2 c hc'
    have heq : line = line' := by
      rw [ht.lineOf_eq hline, hu.lineOf_eq hline', h.ancestors_eq ht hu, funext (h.classIndex_get? ht hu)]
    have hfunctions := CUnit.functionsOf_of_lowerProgram hv ht.class_distinct hc
    rw [CUnit.functionsOf_of_lowerProgram hw hu.class_distinct hc'] at hfunctions
    rw [← heq] at hlayout' hvtable'
    exact ⟨⟨_, hlayout, hlayout'⟩, ⟨_, hvtable, hvtable'⟩, (Except.ok.inj hfunctions).symm⟩

/-! ## Listings -/

open Assembly

theorem get?_interfaces (h : p.Reordered q) (ht : p.Declarations t) (hu : q.Declarations u)
    {I J : Table Name Interface} (hI : interfacesOf p = .ok I) (hJ : interfacesOf q = .ok J) (c : Name) :
    I.get? c = J.get? c := by
  refine Option.ext fun interface => ?_
  rw [get?_interfacesOf hI, get?_interfacesOf hJ, Table.mem_keys_iff, Table.mem_keys_iff, h.classIndex_get? ht hu,
    h.lineage_eq ht hu]

/-- **The listings of reordered programs are the same but for their order and the numbers of the labels.** -/
theorem listings_renumbered {d e : Elaborated} (h : d.program.Reordered e.program) (hd : d.Sound) (he : e.Sound)
    {ls ms : List Listing} (hls : (lowerProgram d.program).result = .ok ls)
    (hms : (lowerProgram e.program).result = .ok ms) :
    ∃ σ : Nat → Nat, Function.Injective σ ∧ (ls.map (Listing.rename σ)).Perm ms := by
  obtain ⟨I, code, n, classes, _, hI, hcode, hclasses, rfl⟩ := lowerProgram_eq_ok.1 hls
  obtain ⟨J, code', n', classes', _, hJ, hcode', hclasses', rfl⟩ := lowerProgram_eq_ok.1 hms
  obtain ⟨I', hI', hknows⟩ := hd.declarations.interfacesOf_eq_ok
  rw [hI] at hI'
  cases hI'
  have hIJ := h.get?_interfaces hd.declarations he.declarations hI hJ
  -- The main class is listed first in both, from the same number on.
  have hraised := lowerMain_raised hIJ hcode 0
  have hzero : (0 + · : Nat → Nat) = id := funext Nat.zero_add
  rw [h.main, hcode', hzero, map_rename_id, Nat.zero_add] at hraised
  cases hraised
  -- The other classes are blocks behind it.
  have hblock : ∀ c ∈ d.program.classes, ∃ b, (lowerClass I c 0).result = .ok b := fun c hc => by
    obtain ⟨l, w, hl⟩ := lowerClass_total hknows (hd.marked.methods c hc) 0
    exact ⟨(l, w), hl⟩
  obtain ⟨bs, hbs⟩ := exists_mapM_eq_ok hblock
  have hbs := mapM_eq_ok.1 hbs
  obtain ⟨bs', hbs', hperm⟩ := List.perm_comp_forall₂ h.classes.symm hbs
  rw [lowerClasses_layOut (fun _ => rfl) hbs] at hclasses
  rw [lowerClasses_layOut hIJ hbs'] at hclasses'
  cases hclasses
  cases hclasses'
  obtain ⟨σ, hinjective, hfixed, hlayOut⟩ := exists_renumbering hperm.symm (fun b hb => by
    obtain ⟨c, -, hc⟩ := forall₂_mem_right hbs b hb
    exact lowerClass_below hc) n
  refine ⟨σ, hinjective, ?_⟩
  have hown := Frame.lowerStmt_ownLabels (lowerMain_sound hcode)
  have hmain : code.map (Instr.rename σ) = code := by
    rw [map_rename_congr (τ := id) (hown.below (Nat.le_refl n)) fun i hi => hfixed i (.inl hi), map_rename_id]
  rw [List.map_cons, Listing.rename, hmain, h.main, List.map_map]
  refine .cons _ ?_
  have hrename : Listing.rename σ ∘ Listing.cls = Listing.cls ∘ ClassListing.rename σ := rfl
  rw [hrename, ← List.map_map]
  exact hlayOut.map _

/-- One renumbering of labels takes the listing of every class over into the other program. -/
theorem listing?_renumbered {d e : Elaborated} (h : d.program.Reordered e.program) (hd : d.Sound) (he : e.Sound)
    {ls ms : List Listing} (hls : (lowerProgram d.program).result = .ok ls)
    (hms : (lowerProgram e.program).result = .ok ms) :
    ∃ σ : Nat → Nat, Function.Injective σ ∧
      ∀ x ∈ d.program.main.name.val :: d.program.classes.map (·.name.val),
        ∃ l, listing? ls x = some l ∧ listing? ms x = some (l.rename σ) := by
  obtain ⟨σ, hinjective, hperm⟩ := h.listings_renumbered hd he hls hms
  refine ⟨σ, hinjective, fun x hx => ?_⟩
  have hn : (ls.map (·.name)).Nodup := names_of_lowerProgram hls ▸ hd.declarations.distinct
  have hn' : (ms.map (·.name)).Nodup := names_of_lowerProgram hms ▸ he.declarations.distinct
  rw [← names_of_lowerProgram hls, List.mem_map] at hx
  obtain ⟨l, hl, rfl⟩ := hx
  refine ⟨l, find?_key_of_mem Listing.name hn hl, ?_⟩
  have hmem : l.rename σ ∈ ms := hperm.mem_iff.1 (List.mem_map_of_mem hl)
  rw [← Listing.name_rename σ l]
  exact find?_key_of_mem Listing.name hn' hmem

end Program.Reordered

/-- **The order of the classes does not matter.**  Of two programs that differ in the order of their classes alone both can
be elaborated or neither.  If they can, each class has the same marked tree in both; its layout, its virtual table and its
functions are the same, and its listing is the same but for the labels, which one renumbering, no two of them alike, turns
into those of the other program. -/
theorem Program.compiled_alike_of_reordered (p q : Program) (dump : Dump) (h : p.Reordered q) :
    ((∃ d, (p.elaborate dump).result = .ok d) ↔ ∃ e, (q.elaborate dump).result = .ok e) ∧
    ∀ d e, (p.elaborate dump).result = .ok d → (q.elaborate dump).result = .ok e →
      (d.program.main = e.program.main ∧ ∀ c ∈ p.classes, ∃ c', c'.unmark = c.unmark ∧
        d.program.class? c.name.val = some c' ∧ e.program.class? c.name.val = some c') ∧
      (∃ u v, (CUnit.lowerProgram d.program).result = .ok u ∧ (CUnit.lowerProgram e.program).result = .ok v ∧
        u.main = v.main ∧ ∀ c ∈ p.classes, u.HaveAlike v c.name.val) ∧
      ∃ ls ms, (Assembly.lowerProgram d.program).result = .ok ls ∧ (Assembly.lowerProgram e.program).result = .ok ms ∧
        ∃ σ : Nat → Nat, Function.Injective σ ∧ ∀ x ∈ p.main.name.val :: p.classes.map (·.name.val),
          ∃ l, Assembly.listing? ls x = some l ∧ Assembly.listing? ms x = some (l.rename σ) := by
  refine ⟨⟨fun ⟨d, hd⟩ => ?_, fun ⟨e, he⟩ => ?_⟩, fun d e hd he => ?_⟩
  · obtain ⟨e, he, -⟩ := h.elaborate hd
    exact ⟨e, he⟩
  · obtain ⟨d, hd, -⟩ := h.symm.elaborate he
    exact ⟨d, hd⟩
  obtain ⟨e', he', hreordered⟩ := h.elaborate hd
  rw [he] at he'
  cases he'
  obtain ⟨hdsound, hunmark⟩ := elaborate_sound hd
  obtain ⟨hesound, -⟩ := elaborate_sound he
  refine ⟨⟨hreordered.main, fun c hc => ?_⟩, ?_, ?_⟩
  · obtain ⟨c', hc', hc, hname⟩ := exists_class_of_unmark_eq hunmark hc
    have hdistinct := hdsound.declarations.class_distinct
    have hclass : d.program.class? c.name.val = some c' := hname ▸ class?_of_mem hdistinct hc'
    exact ⟨c', hc, hclass, hreordered.class?_eq hdistinct _ ▸ hclass⟩
  · obtain ⟨u, hu⟩ := CUnit.lowerProgram_total hdsound
    obtain ⟨v, hv⟩ := CUnit.lowerProgram_total hesound
    obtain ⟨hmain, halike⟩ := hreordered.cUnit_alike hdsound.declarations hesound.declarations hu hv
    refine ⟨u, v, hu, hv, hmain, fun c hc => ?_⟩
    obtain ⟨c', hc', -, hname⟩ := exists_class_of_unmark_eq hunmark hc
    exact hname ▸ halike c' hc'
  · obtain ⟨ls, hls⟩ := Assembly.lowerProgram_total hdsound
    obtain ⟨ms, hms⟩ := Assembly.lowerProgram_total hesound
    have hlistings := hreordered.listing?_renumbered hdsound hesound hls hms
    rw [names_of_unmark_eq hunmark] at hlistings
    exact ⟨ls, ms, hls, hms, hlistings⟩

namespace Sample

/-- A descendant of `Flags`. -/
def gate : ClassDecl :=
  ⟨name "Gate", some (name "Flags"), [], [
    ⟨name "open", ⟨.boolean, mark.span⟩, [declare "n" .int], [],
      [], .not mark (.binary mark (read "n") .less (.literal mark 1))⟩]⟩

def ordered : Program := { program with classes := [cell, flags, gate] }

/-- The same program with each class before its parent. -/
def reversed : Program := { program with classes := [gate, flags, cell] }

end Sample

theorem Program.compiled_alike_on_sample : Sample.ordered.Reordered Sample.reversed ∧
    ∃ d e, (Sample.ordered.elaborate ⟨false, false⟩).result = .ok d ∧
      (Sample.reversed.elaborate ⟨false, false⟩).result = .ok e ∧
      (∃ u v, (CUnit.lowerProgram d.program).result = .ok u ∧ (CUnit.lowerProgram e.program).result = .ok v ∧
        u.HaveAlike v "Gate") ∧
      ∃ ls ms, (Assembly.lowerProgram d.program).result = .ok ls ∧ (Assembly.lowerProgram e.program).result = .ok ms ∧
        ∃ σ : Nat → Nat, Function.Injective σ ∧
          ∃ l, Assembly.listing? ls "Gate" = some l ∧ Assembly.listing? ms "Gate" = some (l.rename σ) := by
  have hreordered : Sample.ordered.Reordered Sample.reversed :=
    ⟨rfl, (List.reverse_perm [Sample.gate, Sample.flags, Sample.cell])⟩
  obtain ⟨d, hd⟩ : ∃ d, (Sample.ordered.elaborate ⟨false, false⟩).result = .ok d := ⟨_, rfl⟩
  obtain ⟨hiff, hcode⟩ := compiled_alike_of_reordered Sample.ordered Sample.reversed ⟨false, false⟩ hreordered
  obtain ⟨e, he⟩ := hiff.1 ⟨d, hd⟩
  obtain ⟨-, ⟨u, v, hu, hv, -, halike⟩, ls, ms, hls, hms, σ, hinjective, hlistings⟩ := hcode d e hd he
  have hgate : Sample.gate ∈ Sample.ordered.classes := List.mem_cons_of_mem _ (List.mem_cons_of_mem _ List.mem_cons_self)
  exact ⟨hreordered, d, e, hd, he, ⟨u, v, hu, hv, halike _ hgate⟩, ls, ms, hls, hms, σ, hinjective,
    hlistings _ (List.mem_cons_of_mem _ (List.mem_map_of_mem hgate))⟩

end MiniJava
