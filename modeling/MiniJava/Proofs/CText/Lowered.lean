import MiniJava.Proofs.Assembly.StackTypes
import MiniJava.Proofs.CText.Pieces
import MiniJava.Proofs.CUnit.Scopes
import MiniJava.Proofs.CUnit.Total
/-!
# The names in lowered code

Where the names that a program declares are identifiers, the code of its methods can be read (`readable_of_lowerProgram`):
numbers come from literals, which have no sign, and every name that is used in a sound program is declared in it, as a
variable, a field, a method or a class.
-/
namespace MiniJava

open CUnit

/-! ## Declared names -/

namespace Program.Declarations

variable {p : Program} {t : ClassTable} (h : p.Declarations t)

include h

theorem mem_memberNames_of_resolveField {c f : Name} {ty : Ty} (hf : t.resolveField c f = some ty) :
    f ∈ p.memberNames := by
  obtain ⟨a, -, hown⟩ := ClassTable.resolveField_eq_some_iff.1 hf
  obtain ⟨e, he, hget⟩ := Option.bind_eq_some_iff.1 hown
  rcases h.entry_cases he with rfl | ⟨d, hd, -, hfields, -⟩
  · cases hget
  · have hmem : (f, ty) ∈ d.fieldTypes := hfields ▸ mem_of_valueOf?_eq_some hget
    obtain ⟨field, hfield, heq⟩ := List.mem_map.1 hmem
    cases heq
    exact List.mem_flatMap.2 ⟨d, hd, List.mem_append_left _ (List.mem_map_of_mem hfield)⟩

theorem mem_memberNames_of_resolveMethod {c m : Name} {sig : Signature} (hm : t.resolveMethod c m = some sig) :
    m ∈ p.memberNames := by
  obtain ⟨a, -, hown⟩ := ClassTable.resolveMethod_eq_some_iff.1 hm
  obtain ⟨e, he, hget⟩ := Option.bind_eq_some_iff.1 hown
  rcases h.entry_cases he with rfl | ⟨d, hd, -, -, hmethods⟩
  · cases hget
  · have hmem : (m, sig) ∈ d.signatures := hmethods ▸ mem_of_valueOf?_eq_some hget
    obtain ⟨method, hmethod, heq⟩ := List.mem_map.1 hmem
    cases heq
    exact List.mem_flatMap.2 ⟨d, hd, List.mem_append_right _ (List.mem_flatMap.2 ⟨method, hmethod, List.mem_cons_self⟩)⟩

theorem exists_class_of_parentOf {c a : Name} (ha : t.parentOf c = some a) : ∃ d ∈ p.classes, d.name.val = a := by
  obtain ⟨e, he, hparent⟩ := Option.bind_eq_some_iff.1 ha
  rcases h.entry_cases he with rfl | ⟨d, hd, rfl, -⟩
  · cases hparent
  · rw [h.parentOf_eq hd] at ha
    obtain ⟨q, hq, rfl⟩ := Option.map_eq_some_iff.1 ha
    exact h.isType_iff.1 (h.parents d hd q hq)

/-- All but the first name of a walk are declared classes. -/
theorem exists_class_of_mem_walk {a : Name} : ∀ {n : Nat} {c : Name}, a ∈ t.walk n c → a ≠ c →
    ∃ d ∈ p.classes, d.name.val = a
  | n + 1, c, ha, hne => by
    rw [ClassTable.walk, List.mem_cons] at ha
    have hrest := ha.resolve_left hne
    split at hrest
    · rename_i parent hparent
      by_cases heq : a = parent
      · exact heq ▸ h.exists_class_of_parentOf hparent
      · exact exists_class_of_mem_walk hrest heq
    · cases hrest

end Program.Declarations

/-! ## Scopes -/

/-- **A scope in which all names are identifiers.** -/
structure Scope.Spells (sc : Scope) : Prop where
  uses : ∀ {x ty home}, sc.Finds x ty home → IsIdentifier x
  methods : ∀ {c m sig}, sc.classes.resolveMethod c m = some sig → IsIdentifier m
  classes : ∀ {c}, sc.classes.isType c = true → IsIdentifier c
  ancestors : ∀ {c a}, a ∈ sc.classes.ancestors c → a ≠ c → IsIdentifier a

theorem Program.Declarations.spells {p : Program} {t : ClassTable} (h : p.Declarations t)
    (hnames : ∀ x ∈ p.declaredNames, IsIdentifier x) {current : Option Name} {locals : Table Name Ty}
    (hlocals : ∀ {x ty}, locals.get? x = some ty → IsIdentifier x) : Scope.Spells ⟨t, current, locals⟩ where
  uses := fun hfinds => by
    cases hfinds with
    | method hget => exact hlocals hget
    | object _ _ hfield => exact hnames _ (p.memberNames_subset (h.mem_memberNames_of_resolveField hfield))
  methods := fun hmethod => hnames _ (p.memberNames_subset (h.mem_memberNames_of_resolveMethod hmethod))
  classes := fun hc => by
    obtain ⟨d, hd, rfl⟩ := h.isType_iff.1 hc
    exact hnames _ (List.mem_flatMap.2 ⟨d, hd, List.mem_cons_self⟩)
  ancestors := fun ha hne => by
    obtain ⟨d, hd, rfl⟩ := h.exists_class_of_mem_walk ha hne
    exact hnames _ (List.mem_flatMap.2 ⟨d, hd, List.mem_cons_self⟩)

namespace CUnit

variable {formals : List Name} {sc : Scope}

/-! ## Code -/

theorem identifier_placeOf (hsc : sc.Spells) {x : Variable} {ty : Ty} {home : Home} {place : Place}
    (hx : sc.MarkedVariable x ty home) (hp : placeOf formals x = .ok place) : IsIdentifier place.name := by
  obtain ⟨hfinds⟩ := hx
  have hname := hsc.uses hfinds
  cases home with
  | method =>
    rw [← placeOf_method_eq_ok.1 hp]
    split <;> exact hname
  | object =>
    rw [← placeOf_object_eq_ok.1 hp]
    exact hname

theorem readable_coerce {t : ClassTable} (hancestors : ∀ {c a}, a ∈ t.ancestors c → a ≠ c → IsIdentifier a) {e : CExpr}
    (he : e.Readable) {found expected : Ty} (hcompatible : t.compatible found expected = true) :
    (coerce found.storage expected.storage e).Readable := by
  have hfits := ClassTable.fits_of_compatible hcompatible
  unfold CUnit.coerce
  split
  · rename_i c d hfound hexpected
    split
    · exact he
    · rename_i hne
      refine ⟨fun a ha => ?_, he⟩
      rw [hfound, hexpected] at hfits
      rw [hexpected] at ha
      cases ha
      exact hancestors hfits (Ne.symm hne)
  · exact he

mutual

/-- **The code of an expression can be read.** -/
theorem LowersExpr.readable (hsc : sc.Spells) : ∀ {e : Expr} {ts ts' : TempList} {c : CExpr} {ty : Ty},
    LowersExpr formals e ts c ts' → sc.Marked e ty → c.Readable
  | _, _, _, _, _, .literal, .literal => Int.natCast_nonneg _
  | _, _, _, _, _, @LowersExpr.bool _ _ b _, .bool => by cases b <;> exact Int.natCast_nonneg _
  | _, _, _, _, _, .self, .self _ => trivial
  | _, _, _, _, _, .read hp, .read hx => identifier_placeOf hsc hx hp
  | _, _, _, _, _, .binary hcl hcr, .binary hl hr => ⟨hcl.readable hsc hl, hcr.readable hsc hr⟩
  | _, _, _, _, _, .not hc, .not he => hc.readable hsc he
  | _, _, _, _, _, .index hca hci, .index ha hi => ⟨hca.readable hsc ha, hci.readable hsc hi⟩
  | _, _, _, _, _, .length hc, .length he => hc.readable hsc he
  | _, _, _, _, _, .newArray hc, .newArray he => hc.readable hsc he
  | _, _, _, _, _, .newObject, .newObject hc => hsc.classes hc
  | _, _, _, _, _, .call hres hcr hces, .call hr hm hes hcompatible => by
    cases hres
    exact ⟨hcr.readable hsc hr, hsc.methods hm, hces.readable hsc hes hcompatible⟩
termination_by structural e => e

theorem LowersArguments.readable (hsc : sc.Spells) : ∀ {expected : List Ty} {es : List Expr} {ts ts' : TempList}
    {cs : List CExpr} {tys : List Ty}, LowersArguments formals expected es ts cs ts' → List.Forall₂ sc.Marked es tys →
    List.Forall₂ (fun ty formal => sc.classes.compatible ty formal = true) tys expected → AllReadable cs
  | _, _, _, _, _, _, .noFormals, _, _ | _, _, _, _, _, _, .noArguments, _, _ => trivial
  | _, _, _, _, _, _, .cons hty hc hcs, .cons he hes, .cons hcompatible hrest => by
    cases hty.symm.trans (markedType_eq_ok he)
    exact ⟨readable_coerce hsc.ancestors (hc.readable hsc he) hcompatible, hcs.readable hsc hes hrest⟩
termination_by structural _ es => es

end

mutual

/-- **The code of a statement can be read.** -/
theorem LowersStmt.readable (hsc : sc.Spells) : ∀ {s : Stmt} {ts ts' : TempList} {c : CStmt},
    LowersStmt formals s ts c ts' → sc.MarkedStmt s → c.Readable
  | _, _, _, _, .block hcb, .block hb => hcb.readable hsc hb
  | _, _, _, _, .ite hcc hcy hcn, .ite hc hy hn => ⟨hcc.readable hsc hc, hcy.readable hsc hy, hcn.readable hsc hn⟩
  | _, _, _, _, .loop hcc hcb, .loop hc hb => ⟨hcc.readable hsc hc, hcb.readable hsc hb⟩
  | _, _, _, _, .print hc, .print he => hc.readable hsc he
  | _, _, _, _, .assign hp hc, .assign hx he => ⟨identifier_placeOf hsc hx hp, hc.readable hsc he⟩
  | _, _, _, _, .store hp hci hc, .store hx hi he =>
    ⟨identifier_placeOf hsc hx hp, hci.readable hsc hi, hc.readable hsc he⟩
termination_by structural s => s

theorem LowersStmts.readable (hsc : sc.Spells) : ∀ {ss : List Stmt} {ts ts' : TempList} {cs : List CStmt},
    LowersStmts formals ss ts cs ts' → (∀ s ∈ ss, sc.MarkedStmt s) → BodyReadable cs
  | _, _, _, _, .nil, _ => trivial
  | _, _, _, _, .cons hc hcs, hss => by
    obtain ⟨hs, hss⟩ := List.forall_mem_cons.1 hss
    exact ⟨hc.readable hsc hs, hcs.readable hsc hss⟩
termination_by structural ss => ss

end

/-! ## Units -/

/-- A function whose code can be read. -/
structure Function.Readable (f : Function) : Prop where
  body : BodyReadable f.body
  result : f.result.Readable

/-- **All code of a sound program can be read**, if the names that the program declares are identifiers. -/
theorem readable_of_lowerProgram {e : Elaborated} (h : e.Sound) (hnames : ∀ x ∈ e.program.declaredNames, IsIdentifier x)
    {u : CUnit} (hu : (lowerProgram e.program).result = .ok u) :
    (∀ f ∈ u.functions, f.Readable) ∧ u.main.body.Readable := by
  obtain ⟨_, _, -, -, -, -, -, hmain⟩ := lowerProgram_sound hu
  constructor
  · intro f hf
    obtain ⟨c, hc, m, hm, hdefine⟩ := (functions_of_lowerProgram hu).1 f hf
    have hlocals : ∀ {x ty}, (Table.ofList m.variables).get? x = some ty → IsIdentifier x := fun {x ty} hx => by
      have hkeys := Table.mem_keys_ofList.1 (Table.mem_keys_iff.2 ⟨ty, hx⟩)
      rw [Method.variables, List.map_map] at hkeys
      refine hnames x (e.program.memberNames_subset (List.mem_flatMap.2 ⟨c, hc, List.mem_append_right _ ?_⟩))
      exact List.mem_flatMap.2 ⟨m, hm, List.mem_cons_of_mem _ hkeys⟩
    have hsc : (m.scope e.classes c.name.val).Spells := h.declarations.spells hnames hlocals
    have hmarked := h.marked.methods c hc m hm
    obtain ⟨ts, found, code, hbody, hfound, hresult, heq⟩ := hdefine.exists_parts
    obtain ⟨ty, hty, hcompatible⟩ := hmarked.result
    cases hfound.symm.trans (markedType_eq_ok hty)
    exact ⟨hbody.readable hsc hmarked.body, heq ▸ readable_coerce hsc.ancestors (hresult.readable hsc hty) hcompatible⟩
  · have hlocals : ∀ {x ty}, e.classes.mainScope.locals.get? x = some ty → IsIdentifier x := fun hx => by cases hx
    have hsc : e.classes.mainScope.Spells := h.declarations.spells hnames hlocals
    exact (lowersStmt_of_lowerStmt hmain).readable hsc h.marked.main

end CUnit

end MiniJava
