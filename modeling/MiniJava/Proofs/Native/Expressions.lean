import MiniJava.Proofs.Execution.Lazy
import MiniJava.Proofs.Native.Meaning
/-!
# The code of C units

The C code of an expression evaluates it as the lazy reading does that passes over anything, and leaves the temporaries
alone that were in use before it (`LazyEval.native`, `CEval.lazy`, `CEval.keeps`).  The code of a statement does what the
statement does (`LazyExec.native`, `CExec.lazy`).  In both, a variable of the method is an argument or a local of the
function, and no field.
-/
namespace MiniJava

open Execution

namespace CUnit

/-- **A site that has what is well typed in the scope.** -/
structure Site.Serves (site : Site) (sc : Scope) : Prop where
  locals : ∀ x ty, sc.locals.get? x = some ty → x ∉ site.formalNames → x ∈ site.localNames
  fields : ∀ c x ty, sc.current = some c → sc.classes.resolveField c x = some ty →
    site.unit.fieldStorage? c x = some ty.storage
  methods : ∀ c m sig, sc.classes.resolveMethod c m = some sig → ∃ slot, site.unit.slot? c m = some slot ∧
    slot.formals = sig.formals.map Ty.storage ∧ slot.returns = sig.returns.storage
  temps : Numbered site.temps

end CUnit

namespace Execution

open CUnit

variable {Ref S : Type} {host : Host Ref S} {act : Activation Ref} {site : Site} {sc : Scope} {cells : Cells Ref}
  {τ τ' : Temps Ref} {s s' : S} {t : Trace Ref} {v : Value Ref} {ts ts' : TempList}

/-! ## Variables -/

namespace Cells

variable {formals : List Name} {x : Name}

theorem env_formal (cells : Cells Ref) (h : x ∈ formals) : cells.env formals x = cells.formals x := if_pos h

theorem env_frame (cells : Cells Ref) (h : x ∉ formals) : cells.env formals x = cells.frame x := if_neg h

theorem env_put_formal (cells : Cells Ref) (h : x ∈ formals) (v : Value Ref) :
    Cells.env { cells with formals := cells.formals.put x v } formals = (cells.env formals).put x v := by
  funext y
  unfold Cells.env Env.put
  by_cases hy : y = x
  · subst hy
    simp [h]
  · simp [hy]

theorem env_put_frame (cells : Cells Ref) (h : x ∉ formals) (v : Value Ref) :
    Cells.env { cells with frame := cells.frame.put x v } formals = (cells.env formals).put x v := by
  funext y
  unfold Cells.env Env.put
  by_cases hy : y = x
  · subst hy
    simp [h]
  · simp [hy]

end Cells

/-- **A variable is read where it is put.** -/
theorem cReads_iff (hsite : site.Serves sc) (hact : act.Serves sc) {x : Variable} {ty : Ty} {home : Home}
    (hx : sc.MarkedVariable x ty home) {place : Place} (hp : placeOf site.formalNames x = .ok place) :
    CReads host act site cells place s t v s' ↔ Reads host act (cells.env site.formalNames) x s t v s' := by
  obtain ⟨hfinds⟩ := hx
  cases hfinds with
  | @method _ hget =>
    cases placeOf_method_eq_ok.1 hp
    split
    · rename_i hx
      constructor
      · rintro ⟨⟩
        exact cells.env_formal hx ▸ .method rfl
      · intro h
        cases h with
        | method _ => exact cells.env_formal hx ▸ .formal hx
        | object hhome _ _ _ => cases hhome
    · rename_i hx
      constructor
      · rintro ⟨⟩
        exact cells.env_frame hx ▸ .method rfl
      · intro h
        cases h with
        | method _ => exact cells.env_frame hx ▸ .frame (hsite.locals _ _ hget hx)
        | object hhome _ _ _ => cases hhome
  | object _ hcurrent hfield =>
    cases placeOf_object_eq_ok.1 hp
    obtain ⟨rfl, -⟩ := hact _ hcurrent
    have hstorage := hsite.fields _ _ _ hcurrent hfield
    constructor
    · intro h
      cases h with
      | field hs ho hp =>
        cases hstorage.symm.trans hs
        exact .object rfl rfl ho hp
    · intro h
      cases h with
      | method hhome => cases hhome
      | object _ hty ho hp =>
        cases hty
        exact .field hstorage ho hp

/-! ## Expressions -/

theorem Temps.put_self (τ : Temps Ref) (n : Nat) (v : Value Ref) : τ.put n v n = some v := Function.update_self ..

theorem Temps.put_of_ne (τ : Temps Ref) {n k : Nat} (h : k ≠ n) (v : Value Ref) : τ.put n v k = τ k :=
  Function.update_of_ne h ..

/-- Casts are where types differ and nowhere else, and change no value. -/
theorem cEval_coerce {found expected : Storage} {code : CExpr} :
    CEval host act site cells (coerce found expected code) τ s t v τ' s' ↔
      CEval host act site cells code τ s t v τ' s' := by
  have hcast : ∀ target, CEval host act site cells (.cast target code) τ s t v τ' s' ↔
      CEval host act site cells code τ s t v τ' s' := fun target =>
    ⟨fun h => by cases h with | cast h => exact h, .cast⟩
  unfold coerce
  split
  · split
    · exact Iff.rfl
    · exact hcast _
  · exact Iff.rfl

mutual

/-- **Code leaves the temporaries alone that were in use before it.** -/
theorem CEval.keeps : ∀ {e : Expr} {code : CExpr} {ts ts' : TempList}, LowersExpr site.formalNames e ts code ts' →
    ∀ {τ τ' : Temps Ref} {s s' : S} {t : Trace Ref} {v : Value Ref}, CEval host act site cells code τ s t v τ' s' →
    ∀ n < ts.length, τ' n = τ n
  | _, _, _, _, .literal, _, _, _, _, _, _, h | _, _, _, _, .bool, _, _, _, _, _, _, h
  | _, _, _, _, .self, _, _, _, _, _, _, h | _, _, _, _, .read _, _, _, _, _, _, _, h
  | _, _, _, _, .newObject, _, _, _, _, _, _, h => by
    cases h
    exact fun _ _ => rfl
  | _, _, _, _, .binary hcl hcr, _, _, _, _, _, _, h => by
    have hle := hcl.continues.length_le
    cases h with
    | binary _ hl hr | both hl _ hr =>
      exact fun n hn => (hr.keeps hcr n (Nat.lt_of_lt_of_le hn hle)).trans (hl.keeps hcl n hn)
    | skip hl => exact hl.keeps hcl
  | _, _, _, _, .not hce, _, _, _, _, _, _, h => by
    cases h with | not he => exact he.keeps hce
  | _, _, _, _, .index hca hci, _, _, _, _, _, _, h => by
    have hle := hca.continues.length_le
    cases h with
    | index ha hi _ => exact fun n hn => (hi.keeps hci n (Nat.lt_of_lt_of_le hn hle)).trans (ha.keeps hca n hn)
  | _, _, _, _, .length hca, _, _, _, _, _, _, h => by
    cases h with | length ha _ => exact ha.keeps hca
  | _, _, _, _, .newArray hce, _, _, _, _, _, _, h => by
    cases h with | newArray he _ => exact he.keeps hce
  | _, _, _, _, .call _ hcr hces, _, _, _, _, _, _, h => by
    have hlt := hcr.continues.length_lt
    cases h with
    | call hr hes _ _ _ _ =>
      intro n hn
      rw [hes.keeps hces n (Nat.lt_trans hn hlt), Temps.put_of_ne _ (Nat.ne_of_lt hn)]
      exact hr.keeps hcr n (Nat.lt_of_lt_of_le hn (Continues.fresh _).length_le)

theorem CEvalAll.keeps : ∀ {tys : List Ty} {es : List Expr} {codes : List CExpr} {ts ts' : TempList},
    LowersArguments site.formalNames tys es ts codes ts' → ∀ {τ τ' : Temps Ref} {s s' : S} {t : Trace Ref}
    {vs : List (Value Ref)}, CEvalAll host act site cells codes τ s t vs τ' s' → ∀ n < ts.length, τ' n = τ n
  | _, _, _, _, _, .noFormals, _, _, _, _, _, _, h | _, _, _, _, _, .noArguments, _, _, _, _, _, _, h => by
    cases h
    exact fun _ _ => rfl
  | _, _, _, _, _, .cons _ hce hces, _, _, _, _, _, _, h => by
    have hle := hce.continues.length_le
    cases h with
    | cons he hes =>
      exact fun n hn => (hes.keeps hces n (Nat.lt_of_lt_of_le hn hle)).trans ((cEval_coerce.1 he).keeps hce n hn)

end

mutual

/-- **The code of an expression evaluates it**, passing over operands as C does. -/
theorem LazyEval.native (hsite : site.Serves sc) (hact : act.Serves sc) : ∀ {e : Expr} {code : CExpr}
    {ts ts' : TempList}, LowersExpr site.formalNames e ts code ts' → ∀ {ty : Ty} {s s' : S} {t : Trace Ref}
    {v : Value Ref}, LazyEval host act anything (cells.env site.formalNames) e s t v s' → sc.Marked e ty →
    ts' <+: site.temps → ∀ τ, ∃ τ', CEval host act site cells code τ s t v τ' s'
  | _, _, _, _, .literal, _, _, _, _, _, h, _, _, τ => by
    cases h
    rw [← BitVec.ofInt_natCast]
    exact ⟨τ, .int⟩
  | _, _, _, _, @LowersExpr.bool _ _ b _, _, _, _, _, _, h, _, _, τ => by
    cases h
    cases b <;> exact ⟨τ, .int⟩
  | _, _, _, _, .self, _, _, _, _, _, h, _, _, τ => by
    cases h with | self ho => exact ⟨τ, .self ho⟩
  | _, _, _, _, .read hp, _, _, _, _, _, h, hm, _, τ => by
    cases hm with
    | read hx =>
      cases h with | read hr => exact ⟨τ, .read ((cReads_iff hsite hact hx hp).2 hr)⟩
  | _, _, _, _, .binary hcl hcr, _, _, _, _, _, h, hm, hts, τ => by
    cases hm with
    | binary hml hmr =>
      have htl := hcr.continues.before.trans hts
      cases h with
      | binary hop hl hr =>
        obtain ⟨τ₁, hl⟩ := hl.native hsite hact hcl hml htl τ
        obtain ⟨τ₂, hr⟩ := hr.native hsite hact hcr hmr hts τ₁
        exact ⟨τ₂, .binary hop hl hr⟩
      | both hl ha hr =>
        obtain ⟨τ₁, hl⟩ := hl.native hsite hact hcl hml htl τ
        obtain ⟨τ₂, hr⟩ := hr.native hsite hact hcr hmr hts τ₁
        exact ⟨τ₂, .both hl ha hr⟩
      | pass hl _ =>
        obtain ⟨τ₁, hl⟩ := hl.native hsite hact hcl hml htl τ
        exact ⟨τ₁, .skip hl⟩
  | _, _, _, _, .not hce, _, _, _, _, _, h, hm, hts, τ => by
    cases hm with
    | not hme =>
      cases h with
      | not he =>
        obtain ⟨τ₁, he⟩ := he.native hsite hact hce hme hts τ
        exact ⟨τ₁, .not he⟩
  | _, _, _, _, .index hca hci, _, _, _, _, _, h, hm, hts, τ => by
    cases hm with
    | index hma hmi =>
      cases h with
      | index ha hi hp =>
        obtain ⟨τ₁, ha⟩ := ha.native hsite hact hca hma (hci.continues.before.trans hts) τ
        obtain ⟨τ₂, hi⟩ := hi.native hsite hact hci hmi hts τ₁
        exact ⟨τ₂, .index ha hi hp⟩
  | _, _, _, _, .length hca, _, _, _, _, _, h, hm, hts, τ => by
    cases hm with
    | length hma =>
      cases h with
      | length ha hp =>
        obtain ⟨τ₁, ha⟩ := ha.native hsite hact hca hma hts τ
        exact ⟨τ₁, .length ha hp⟩
  | _, _, _, _, .newArray hce, _, _, _, _, _, h, hm, hts, τ => by
    cases hm with
    | newArray hme =>
      cases h with
      | newArray he hp =>
        obtain ⟨τ₁, he⟩ := he.native hsite hact hce hme hts τ
        exact ⟨τ₁, .newArray he hp⟩
  | _, _, _, _, .newObject, _, _, _, _, _, h, _, _, τ => by
    cases h with | newObject hp => exact ⟨τ, .newObject hp⟩
  | _, _, ts, _, .call hres hcr hces, _, _, _, _, _, h, hm, hts, τ => by
    cases hm with
    | call hmr hmethod hmes hcompatible =>
      cases hres
      have htr := hces.continues.before.trans hts
      have htemp := hcr.continues.before.trans htr
      obtain ⟨slot, hslot, hformals, hreturns⟩ := hsite.methods _ _ _ hmethod
      cases h with
      | @call _ _ _ _ _ _ _ _ _ _ _ o _ _ hr hes hp =>
        obtain ⟨τ₁, hr⟩ := hr.native hsite hact hcr hmr htr τ
        obtain ⟨τ₂, hes⟩ := hes.native hsite hact hces hmes hcompatible hts (τ₁.put ts.length (.ref o))
        have hholds : τ₂ ts.length = some (.ref o) := by
          rw [hes.keeps hces _ hcr.continues.length_lt, Temps.put_self]
        rw [Resolution.methodRef, ← hformals, ← hreturns] at hp ⊢
        exact ⟨τ₂, .call hr hes (hsite.temps.valueOf? htemp) hslot hholds hp⟩

theorem LazyEvalAll.native (hsite : site.Serves sc) (hact : act.Serves sc) : ∀ {expected : List Ty} {es : List Expr}
    {codes : List CExpr} {ts ts' : TempList}, LowersArguments site.formalNames expected es ts codes ts' →
    ∀ {tys : List Ty} {s s' : S} {t : Trace Ref} {vs : List (Value Ref)},
    LazyEvalAll host act anything (cells.env site.formalNames) es s t vs s' → List.Forall₂ sc.Marked es tys →
    List.Forall₂ (fun ty formal => sc.classes.compatible ty formal = true) tys expected →
    ts' <+: site.temps → ∀ τ, ∃ τ', CEvalAll host act site cells codes τ s t vs τ' s'
  | _, _, _, _, _, .noFormals, _, _, _, _, _, h, hms, .nil, _, τ
  | _, _, _, _, _, .noArguments, _, _, _, _, _, h, hms, _, _, τ => by
    cases hms
    cases h
    exact ⟨τ, .nil⟩
  | _, _, _, _, _, .cons _ hce hces, _, _, _, _, _, h, .cons hme hmes, .cons _ hcompatible, hts, τ => by
    cases h with
    | cons he hes =>
      obtain ⟨τ₁, he⟩ := he.native hsite hact hce hme (hces.continues.before.trans hts) τ
      obtain ⟨τ₂, hes⟩ := hes.native hsite hact hces hmes hcompatible hts τ₁
      exact ⟨τ₂, .cons (cEval_coerce.2 he) hes⟩

end

mutual

/-- **The code of an expression does nothing else.** -/
theorem CEval.lazy (hsite : site.Serves sc) (hact : act.Serves sc) : ∀ {e : Expr} {code : CExpr} {ts ts' : TempList},
    LowersExpr site.formalNames e ts code ts' → ∀ {ty : Ty} {τ τ' : Temps Ref} {s s' : S} {t : Trace Ref}
    {v : Value Ref}, CEval host act site cells code τ s t v τ' s' → sc.Marked e ty → ts' <+: site.temps →
    LazyEval host act anything (cells.env site.formalNames) e s t v s'
  | _, _, _, _, .literal, _, _, _, _, _, _, _, h, _, _ => by
    cases h
    rw [BitVec.ofInt_natCast]
    exact .literal
  | _, _, _, _, @LowersExpr.bool _ _ b _, _, _, _, _, _, _, _, h, _, _ => by
    cases h
    have htruth : BitVec.ofInt 32 (if b then 1 else 0) = truth b := by cases b <;> rfl
    rw [htruth]
    exact .bool
  | _, _, _, _, .self, _, _, _, _, _, _, _, h, _, _ => by
    cases h with | self ho => exact .self ho
  | _, _, _, _, .read hp, _, _, _, _, _, _, _, h, hm, _ => by
    cases hm with
    | read hx =>
      cases h with | read hr => exact .read ((cReads_iff hsite hact hx hp).1 hr)
  | _, _, _, _, .binary hcl hcr, _, _, _, _, _, _, _, h, hm, hts => by
    cases hm with
    | binary hml hmr =>
      have htl := hcr.continues.before.trans hts
      cases h with
      | binary hop hl hr => exact .binary hop (hl.lazy hsite hact hcl hml htl) (hr.lazy hsite hact hcr hmr hts)
      | both hl ha hr => exact .both (hl.lazy hsite hact hcl hml htl) ha (hr.lazy hsite hact hcr hmr hts)
      | skip hl => exact .pass (hl.lazy hsite hact hcl hml htl) trivial
  | _, _, _, _, .not hce, _, _, _, _, _, _, _, h, hm, hts => by
    cases hm with
    | not hme =>
      cases h with | not he => exact .not (he.lazy hsite hact hce hme hts)
  | _, _, _, _, .index hca hci, _, _, _, _, _, _, _, h, hm, hts => by
    cases hm with
    | index hma hmi =>
      have hta := hci.continues.before.trans hts
      cases h with | index ha hi hp => exact .index (ha.lazy hsite hact hca hma hta) (hi.lazy hsite hact hci hmi hts) hp
  | _, _, _, _, .length hca, _, _, _, _, _, _, _, h, hm, hts => by
    cases hm with
    | length hma =>
      cases h with | length ha hp => exact .length (ha.lazy hsite hact hca hma hts) hp
  | _, _, _, _, .newArray hce, _, _, _, _, _, _, _, h, hm, hts => by
    cases hm with
    | newArray hme =>
      cases h with | newArray he hp => exact .newArray (he.lazy hsite hact hce hme hts) hp
  | _, _, _, _, .newObject, _, _, _, _, _, _, _, h, _, _ => by
    cases h with | newObject hp => exact .newObject hp
  | _, _, _, _, .call hres hcr hces, _, _, _, _, _, _, _, h, hm, hts => by
    cases hm with
    | call hmr hmethod hmes hcompatible =>
      cases hres
      have htr := hces.continues.before.trans hts
      have htemp := hsite.temps.valueOf? (hcr.continues.before.trans htr)
      obtain ⟨slot, hslot, hformals, hreturns⟩ := hsite.methods _ _ _ hmethod
      cases h with
      | call hr hes htemp' hslot' hholds hp =>
        cases htemp.symm.trans htemp'
        cases hslot.symm.trans hslot'
        rw [hes.keeps hces _ hcr.continues.length_lt, Temps.put_self] at hholds
        cases hholds
        rw [hformals, hreturns] at hp ⊢
        exact .call (hr.lazy hsite hact hcr hmr htr) (hes.lazy hsite hact hces hmes hcompatible hts) hp

theorem CEvalAll.lazy (hsite : site.Serves sc) (hact : act.Serves sc) : ∀ {expected : List Ty} {es : List Expr}
    {codes : List CExpr} {ts ts' : TempList}, LowersArguments site.formalNames expected es ts codes ts' →
    ∀ {tys : List Ty} {τ τ' : Temps Ref} {s s' : S} {t : Trace Ref} {vs : List (Value Ref)},
    CEvalAll host act site cells codes τ s t vs τ' s' → List.Forall₂ sc.Marked es tys →
    List.Forall₂ (fun ty formal => sc.classes.compatible ty formal = true) tys expected → ts' <+: site.temps →
    LazyEvalAll host act anything (cells.env site.formalNames) es s t vs s'
  | _, _, _, _, _, .noFormals, _, _, _, _, _, _, _, h, hms, .nil, _
  | _, _, _, _, _, .noArguments, _, _, _, _, _, _, _, h, hms, _, _ => by
    cases hms
    cases h
    exact .nil
  | _, _, _, _, _, .cons _ hce hces, _, _, _, _, _, _, _, h, .cons hme hmes, .cons _ hcompatible, hts => by
    have hte := hces.continues.before.trans hts
    cases h with
    | cons he hes =>
      exact .cons ((cEval_coerce.1 he).lazy hsite hact hce hme hte) (hes.lazy hsite hact hces hmes hcompatible hts)

end

end Execution

end MiniJava
