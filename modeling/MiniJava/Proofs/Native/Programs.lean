import MiniJava.Proofs.Inheritance.Views
import MiniJava.Proofs.Native.Statements
/-!
# C functions do what methods do

The unit of a sound program has the fields and the methods that the class table finds, and each function the variables of
its method.  So the function of a method does what the method does where `&&` passes over operands as C does, and nothing
else (`cReturns_iff`); likewise the main function (`cExec_main_iff`).
-/
namespace MiniJava

open CUnit Execution

namespace CUnit

variable {p : Program} {t : ClassTable} {u : CUnit}

/-- **A unit that has the members that the class table finds.** -/
structure Knows (u : CUnit) (p : Program) (t : ClassTable) : Prop where
  fields : ∀ c ∈ p.classes, ∀ x ty, t.resolveField c.name.val x = some ty →
    u.fieldStorage? c.name.val x = some ty.storage
  methods : ∀ c m sig, t.resolveMethod c m = some sig → ∃ slot, u.slot? c m = some slot ∧
    slot.formals = sig.formals.map Ty.storage ∧ slot.returns = sig.returns.storage

theorem knows_of_lowerProgram (h : p.Declarations t) (hu : (lowerProgram p).result = .ok u) : u.Knows p t := by
  obtain ⟨-, -, hshapes⟩ := h.shapes_of_lowerProgram hu
  constructor
  · intro c hc x ty hx
    obtain ⟨line, hl, hlayout, -⟩ := hshapes c hc
    have hget := h.get?_layoutOf hl x
    rw [hx] at hget
    rw [fieldStorage?, hlayout]
    exact hget
  · intro c m sig hm
    obtain ⟨d, hd, rfl⟩ := h.exists_class_of_resolveMethod hm
    obtain ⟨line, hl, -, hvtable⟩ := hshapes d hd
    obtain ⟨a, -, hslot⟩ := h.get?_slotsOf hl hm
    refine ⟨sig.slot a m, ?_, rfl, rfl⟩
    have hfind : (slotsOf line).values.find? (·.method = m) = some (sig.slot a m) := by
      rw [← List.head?_filter, h.filter_slotsOf hl, hslot]
      rfl
    rw [slot?, hvtable]
    exact hfind

theorem serves_mainSite (hu : u.Knows p t) {main : MainClass}
    (hc : lowerStmt [] main.body [] = .ok (u.main.body, u.main.temps)) : (mainSite u).Serves t.mainScope where
  locals := fun _ _ h => by cases h
  fields := fun _ _ _ h => by cases h
  methods := hu.methods
  temps := (lowersStmt_of_lowerStmt hc).continues.numbered numbered_nil

section

variable {c : ClassDecl} {m : Method} {f : Function}

theorem Defines.formalNames_site (hf : Defines c.name.val m f) : (f.site u).formalNames = m.formalNames := by
  rw [Site.formalNames, Function.site, hf.formals, List.map_map]
  rfl

theorem Defines.serves_site (hf : Defines c.name.val m f) (hu : u.Knows p t) (hc : c ∈ p.classes) :
    (f.site u).Serves (m.scope t c.name.val) where
  locals := fun x ty hx hformal => by
    have hmem : x ∈ m.variables.map Prod.fst := Table.mem_keys_ofList.1 (Table.mem_keys_iff.2 ⟨ty, hx⟩)
    rw [Method.variables, List.map_map, List.map_append, List.mem_append] at hmem
    rw [hf.formalNames_site] at hformal
    rw [Site.localNames, Function.site, hf.locals, List.map_map]
    exact hmem.resolve_left hformal
  fields := fun _ x ty hcurrent hx => by
    cases hcurrent
    exact hu.fields c hc x ty hx
  methods := hu.methods
  temps := hf.numbered

end

end CUnit

namespace Execution

variable {Ref S : Type} {host : Execution.Host Ref S} {p : Program} {t : ClassTable} {u : CUnit} {s s' : S}
  {tr : Trace Ref}

theorem serves_activation {c : Name} {m : Method} (o : Ref) : Activation.Serves ⟨c, some o⟩ (m.scope t c) := by
  intro _ h
  cases h
  exact ⟨rfl, o, rfl⟩

theorem serves_activation_main {c : Name} : Activation.Serves (⟨c, none⟩ : Activation Ref) t.mainScope :=
  fun _ h => by cases h

/-- **The function of a method does what the method does**, passing over operands as C does. -/
theorem cReturns_iff {c : ClassDecl} {m : Method} {f : Function} (hu : u.Knows p t) (hc : c ∈ p.classes)
    (hm : m.MarkedIn t c.name.val) (hf : Defines c.name.val m f) {o : Ref} {cells : Cells Ref} {v : Value Ref}
    {env' : Env Ref} :
    (∃ cells', CReturns host u f o cells s tr v cells' s' ∧ cells'.env m.formalNames = env') ↔
      LazyMethod host ⟨c.name.val, some o⟩ anything m (cells.env m.formalNames) s tr v env' s' := by
  obtain ⟨ts, found, code, hcb, -, hcr, hresult⟩ := hf.exists_parts
  have hsite := hf.serves_site hu hc
  have hact : Activation.Serves ⟨c.name.val, some o⟩ (m.scope t c.name.val) := serves_activation o
  have hts : ts <+: (f.site u).temps := hcr.continues.before
  obtain ⟨ty, hmr, -⟩ := hm.result
  rw [← hf.formalNames_site (u := u)] at hcb hcr ⊢
  constructor
  · rintro ⟨cells', ⟨hb, hr⟩, rfl⟩
    rw [hf.cls] at hb hr
    rw [← hresult, cEval_coerce] at hr
    exact ⟨hb.lazyAll hsite hact hcb hm.body hts, hr.lazy hsite hact hcr hmr List.prefix_rfl⟩
  · rintro ⟨hb, hr⟩
    obtain ⟨cells', τ, rfl, hbody⟩ := hb.native hsite hact hm.body hcb hts cells .unset rfl
    obtain ⟨τ', hcode⟩ := hr.native hsite hact hcr hmr List.prefix_rfl τ
    rw [← hf.cls] at hbody hcode
    exact ⟨cells', ⟨hbody, hresult ▸ cEval_coerce.2 hcode⟩, rfl⟩

/-- **The main function does what the main class does**, passing over operands as C does. -/
theorem cExec_main_iff {main : MainClass} (hu : u.Knows p t) (hm : t.mainScope.MarkedStmt main.body)
    (hc : lowerStmt [] main.body [] = .ok (u.main.body, u.main.temps)) {cells : Cells Ref} :
    (∃ cells' τ, CExec host ⟨main.name.val, none⟩ (mainSite u) u.main.body cells .unset s tr cells' τ s') ↔
      ∃ env', LazyExec host ⟨main.name.val, none⟩ anything main.body (cells.env []) s tr env' s' := by
  have hcode := lowersStmt_of_lowerStmt hc
  have hsite := serves_mainSite hu hc
  have hact : Activation.Serves (⟨main.name.val, none⟩ : Activation Ref) t.mainScope := serves_activation_main
  constructor
  · rintro ⟨cells', τ, h⟩
    exact ⟨_, h.lazy hsite hact hcode hm List.prefix_rfl⟩
  · rintro ⟨env', h⟩
    obtain ⟨cells', τ, -, h⟩ := h.native hsite hact hm hcode List.prefix_rfl cells .unset rfl
    exact ⟨cells', τ, h⟩

end Execution

end MiniJava
