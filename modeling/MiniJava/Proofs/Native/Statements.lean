import MiniJava.Proofs.Native.Expressions
/-!
# The C code of statements

The C code of a statement does what the statement does where `&&` passes over operands as C does, and nothing else
(`LazyExec.native`, `CExec.lazy`).  Each variable is assigned in its own place, an argument or a local.
-/
namespace MiniJava.Execution

open CUnit

variable {Ref S : Type} {host : Host Ref S} {act : Activation Ref} {site : Site} {sc : Scope}

mutual

/-- **The code of a statement does what the statement does.** -/
theorem LazyExec.native (hsite : site.Serves sc) (hact : act.Serves sc) : ∀ {c : Stmt} {env env' : Env Ref} {s s' : S}
    {t : Trace Ref}, LazyExec host act anything c env s t env' s' → sc.MarkedStmt c → ∀ {code : CStmt}
    {ts ts' : TempList}, LowersStmt site.formalNames c ts code ts' → ts' <+: site.temps →
    ∀ cells τ, cells.env site.formalNames = env →
    ∃ cells' τ', cells'.env site.formalNames = env' ∧ CExec host act site code cells τ s t cells' τ' s'
  | _, _, _, _, _, _, .block h, .block hb, _, _, _, hc, hts, cells, τ, henv => by
    cases hc with | block hcb => exact h.native hsite hact hb hcb hts cells τ henv
  | _, _, _, _, _, _, .iteTrue he ha h, .ite hme hy _, _, _, _, hc, hts, cells, τ, henv => by
    rw [← henv] at he
    cases hc with
    | ite hce hcy hcn =>
      have hty := hcn.continues.before.trans hts
      obtain ⟨τ₁, he⟩ := he.native hsite hact hce hme (hcy.continues.before.trans hty) τ
      obtain ⟨cells', τ₂, henv', h⟩ := h.native hsite hact hy hcy hty cells τ₁ henv
      exact ⟨cells', τ₂, henv', .iteTrue he ha h⟩
  | _, _, _, _, _, _, .iteFalse he h, .ite hme _ hn, _, _, _, hc, hts, cells, τ, henv => by
    rw [← henv] at he
    cases hc with
    | ite hce hcy hcn =>
      have hty := hcn.continues.before.trans hts
      obtain ⟨τ₁, he⟩ := he.native hsite hact hce hme (hcy.continues.before.trans hty) τ
      obtain ⟨cells', τ₂, henv', h⟩ := h.native hsite hact hn hcn hts cells τ₁ henv
      exact ⟨cells', τ₂, henv', .iteFalse he h⟩
  | _, _, _, _, _, _, .loop he ha hb h, .loop hme hmb, _, _, _, hc, hts, cells, τ, henv => by
    rw [← henv] at he
    cases hc with
    | loop hce hcb =>
      obtain ⟨τ₁, he⟩ := he.native hsite hact hce hme (hcb.continues.before.trans hts) τ
      obtain ⟨cells₁, τ₂, henv₁, hb⟩ := hb.native hsite hact hmb hcb hts cells τ₁ henv
      obtain ⟨cells₂, τ₃, henv₂, h⟩ := h.native hsite hact (.loop hme hmb) (.loop hce hcb) hts cells₁ τ₂ henv₁
      exact ⟨cells₂, τ₃, henv₂, .loop he ha hb h⟩
  | _, _, _, _, _, _, .loopDone he, .loop hme _, _, _, _, hc, hts, cells, τ, henv => by
    rw [← henv] at he
    cases hc with
    | loop hce hcb =>
      obtain ⟨τ₁, he⟩ := he.native hsite hact hce hme (hcb.continues.before.trans hts) τ
      exact ⟨cells, τ₁, henv, .loopDone he⟩
  | _, _, _, _, _, _, .print he hp, .print hme, _, _, _, hc, hts, cells, τ, henv => by
    rw [← henv] at he
    cases hc with
    | print hce =>
      obtain ⟨τ₁, he⟩ := he.native hsite hact hce hme hts τ
      exact ⟨cells, τ₁, henv, .print he hp⟩
  | _, _, _, _, _, _, .assignMethod hhome he, .assign hx hme, _, _, _, hc, hts, cells, τ, henv => by
    rw [← henv] at he
    obtain ⟨hfinds⟩ := hx
    cases hhome
    cases hfinds with
    | method hget =>
      cases hc with
      | assign hplace hce =>
        obtain ⟨τ₁, he⟩ := he.native hsite hact hce hme hts τ
        cases placeOf_method_eq_ok.1 hplace
        split
        · rename_i hformal
          exact ⟨_, τ₁, henv ▸ cells.env_put_formal hformal _, .assignFormal hformal he⟩
        · rename_i hlocal
          exact ⟨_, τ₁, henv ▸ cells.env_put_frame hlocal _, .assignFrame (hsite.locals _ _ hget hlocal) he⟩
  | _, _, _, _, _, _, .assignObject hhome hty ho he hp, .assign hx hme, _, _, _, hc, hts, cells, τ, henv => by
    rw [← henv] at he
    obtain ⟨hfinds⟩ := hx
    cases hhome
    cases hty
    cases hfinds with
    | object _ hcurrent hfield =>
      cases hc with
      | assign hplace hce =>
        obtain ⟨τ₁, he⟩ := he.native hsite hact hce hme hts τ
        cases placeOf_object_eq_ok.1 hplace
        obtain ⟨rfl, -⟩ := hact _ hcurrent
        exact ⟨cells, τ₁, henv, .assignField (hsite.fields _ _ _ hcurrent hfield) ho he hp⟩
  | _, _, _, _, _, _, .store hr hi he hp, .store hx hmi hme, _, _, _, hc, hts, cells, τ, henv => by
    rw [← henv] at hr hi he
    cases hc with
    | store hplace hci hce =>
      obtain ⟨τ₁, hi⟩ := hi.native hsite hact hci hmi (hce.continues.before.trans hts) τ
      obtain ⟨τ₂, he⟩ := he.native hsite hact hce hme hts τ₁
      exact ⟨cells, τ₂, henv, .store ((cReads_iff hsite hact hx hplace).2 hr) hi he hp⟩

theorem LazyExecAll.native (hsite : site.Serves sc) (hact : act.Serves sc) : ∀ {cs : List Stmt} {env env' : Env Ref}
    {s s' : S} {t : Trace Ref}, LazyExecAll host act anything cs env s t env' s' → (∀ c ∈ cs, sc.MarkedStmt c) →
    ∀ {codes : List CStmt} {ts ts' : TempList}, LowersStmts site.formalNames cs ts codes ts' →
    ts' <+: site.temps → ∀ cells τ, cells.env site.formalNames = env →
    ∃ cells' τ', cells'.env site.formalNames = env' ∧ CExec host act site (.block codes) cells τ s t cells' τ' s'
  | _, _, _, _, _, _, .nil, _, _, _, _, hc, _, cells, τ, henv => by
    cases hc
    exact ⟨cells, τ, henv, .nil⟩
  | _, _, _, _, _, _, .cons h hs, hmarked, _, _, _, hc, hts, cells, τ, henv => by
    obtain ⟨hmc, hmcs⟩ := List.forall_mem_cons.1 hmarked
    cases hc with
    | cons hcc hccs =>
      obtain ⟨cells₁, τ₁, henv₁, h⟩ := h.native hsite hact hmc hcc (hccs.continues.before.trans hts) cells τ henv
      obtain ⟨cells₂, τ₂, henv₂, hs⟩ := hs.native hsite hact hmcs hccs hts cells₁ τ₁ henv₁
      exact ⟨cells₂, τ₂, henv₂, .cons h hs⟩

end

mutual

/-- **The code of a statement does nothing else.** -/
theorem CExec.lazy (hsite : site.Serves sc) (hact : act.Serves sc) : ∀ {c : Stmt} {code : CStmt} {ts ts' : TempList},
    LowersStmt site.formalNames c ts code ts' → ∀ {cells cells' : Cells Ref} {τ τ' : Temps Ref} {s s' : S}
    {t : Trace Ref}, CExec host act site code cells τ s t cells' τ' s' → sc.MarkedStmt c → ts' <+: site.temps →
    LazyExec host act anything c (cells.env site.formalNames) s t (cells'.env site.formalNames) s'
  | _, _, _, _, .block hcb, _, _, _, _, _, _, _, h, .block hmb, hts => .block (h.lazyAll hsite hact hcb hmb hts)
  | _, _, _, _, .ite hce hcy hcn, _, _, _, _, _, _, _, h, .ite hme hmy hmn, hts => by
    have hty := hcn.continues.before.trans hts
    have hte := hcy.continues.before.trans hty
    cases h with
    | iteTrue he ha h => exact .iteTrue (he.lazy hsite hact hce hme hte) ha (h.lazy hsite hact hcy hmy hty)
    | iteFalse he h => exact .iteFalse (he.lazy hsite hact hce hme hte) (h.lazy hsite hact hcn hmn hts)
  | _, _, _, _, .loop hce hcb, _, _, _, _, _, _, _, h, .loop hme hmb, hts => by
    have hte := hcb.continues.before.trans hts
    -- the body is a smaller statement, but the loop is run again: here the induction is on the run
    generalize hcode : CStmt.loop _ _ = code at h
    induction h with
    | loop he ha hb _ _ ih =>
      cases hcode
      exact .loop (he.lazy hsite hact hce hme hte) ha (hb.lazy hsite hact hcb hmb hts) (ih rfl)
    | loopDone he =>
      cases hcode
      exact .loopDone (he.lazy hsite hact hce hme hte)
    | _ => cases hcode
  | _, _, _, _, .print hce, _, _, _, _, _, _, _, h, .print hme, hts => by
    cases h with | print he hp => exact .print (he.lazy hsite hact hce hme hts) hp
  | _, _, _, _, .assign hplace hce, cells, _, _, _, _, _, _, h, .assign hx hme, hts => by
    obtain ⟨hfinds⟩ := hx
    cases hfinds with
    | method _ =>
      cases placeOf_method_eq_ok.1 hplace
      split at h
      · rename_i hformal
        cases h with
        | assignFormal _ he =>
          rw [cells.env_put_formal hformal]
          exact .assignMethod rfl (he.lazy hsite hact hce hme hts)
      · rename_i hlocal
        cases h with
        | assignFrame _ he =>
          rw [cells.env_put_frame hlocal]
          exact .assignMethod rfl (he.lazy hsite hact hce hme hts)
    | object _ hcurrent hfield =>
      cases placeOf_object_eq_ok.1 hplace
      obtain ⟨rfl, -⟩ := hact _ hcurrent
      cases h with
      | assignField hstorage ho he hp =>
        cases (hsite.fields _ _ _ hcurrent hfield).symm.trans hstorage
        exact .assignObject rfl rfl ho (he.lazy hsite hact hce hme hts) hp
  | _, _, _, _, .store hplace hci hce, _, _, _, _, _, _, _, h, .store hx hmi hme, hts => by
    have hti := hce.continues.before.trans hts
    cases h with
    | store hr hi he hp =>
      exact .store ((cReads_iff hsite hact hx hplace).1 hr) (hi.lazy hsite hact hci hmi hti)
        (he.lazy hsite hact hce hme hts) hp

theorem CExec.lazyAll (hsite : site.Serves sc) (hact : act.Serves sc) : ∀ {cs : List Stmt} {codes : List CStmt}
    {ts ts' : TempList}, LowersStmts site.formalNames cs ts codes ts' → ∀ {cells cells' : Cells Ref} {τ τ' : Temps Ref}
    {s s' : S} {t : Trace Ref}, CExec host act site (.block codes) cells τ s t cells' τ' s' →
    (∀ c ∈ cs, sc.MarkedStmt c) → ts' <+: site.temps →
    LazyExecAll host act anything cs (cells.env site.formalNames) s t (cells'.env site.formalNames) s'
  | _, _, _, _, .nil, _, _, _, _, _, _, _, h, _, _ => by
    cases h
    exact .nil
  | _, _, _, _, .cons hcc hccs, _, _, _, _, _, _, _, h, hmarked, hts => by
    obtain ⟨hmc, hmcs⟩ := List.forall_mem_cons.1 hmarked
    have htc := hccs.continues.before.trans hts
    cases h with
    | cons h hs => exact .cons (h.lazy hsite hact hcc hmc htc) (hs.lazyAll hsite hact hccs hmcs hts)

end

end MiniJava.Execution
