import MiniJava.Proofs.Grammar.Expressions
/-!
# Reading statements, classes and programs

A statement tells its own end, and so do methods and classes: whatever follows them, they are read exactly where the
grammar has one.  Only where declarations give way to statements does the parser try and take back; it stops at the right
place since no statement begins as a declaration does (`Statement.not_varDecl`).
-/
namespace MiniJava.Grammar

open Parse

/-! ## Statements -/

theorem reads_parenthesized {ts rest : Tokens} {e : Expr} :
    Reads (parenthesized ts) e rest ↔ Splits Condition ts e rest := by
  simp only [parenthesized, reads_bind, reads_pure, exists_prop, reads_expect]
  constructor
  · rintro ⟨sOpen, _, rfl, e, _, he, sClose, rest, rfl, rfl, rfl⟩
    obtain ⟨us, hus, rfl⟩ := (reads_expression (ends_of_none rfl)).1 he
    exact ⟨_, .intro hus, by rw [List.append_assoc]; rfl⟩
  · rintro ⟨us, hus, rfl⟩
    cases hus with
    | @intro sOpen sClose us e hus =>
      rw [List.append_assoc]
      exact ⟨sOpen, _, rfl, e, _, (reads_expression (ends_of_none rfl)).2 ⟨us, hus, rfl⟩, sClose, rest, rfl, rfl, rfl⟩

theorem reads_assignment {x : Name} {s : Span} {ts rest : Tokens} {st : Stmt} :
    Reads (assignment (.unmarked ⟨x, s⟩) ts) st rest ↔ ∃ us, Statement (⟨.ident x, s⟩ :: us) st ∧ ts = us ++ rest := by
  constructor
  · intro h
    unfold assignment at h
    split at h
    · rename_i sOpen ts
      simp only [reads_bind, reads_pure, exists_prop, reads_expect] at h
      obtain ⟨i, _, hi, sClose, _, rfl, sAssign, _, rfl, e, _, he, sEnd, _, rfl, rfl, rfl⟩ := h
      obtain ⟨is, his, rfl⟩ := (reads_expression (ends_of_none rfl)).1 hi
      obtain ⟨es, hes, rfl⟩ := (reads_expression (ends_of_none rfl)).1 he
      refine ⟨_, @Statement.store x s sOpen sClose sAssign sEnd is es i e his hes, ?_⟩
      simp only [List.append_assoc, List.cons_append, List.nil_append]
    · simp only [reads_bind, reads_pure, exists_prop, reads_expect] at h
      obtain ⟨sAssign, _, rfl, e, _, he, sEnd, _, rfl, rfl, rfl⟩ := h
      obtain ⟨es, hes, rfl⟩ := (reads_expression (ends_of_none rfl)).1 he
      refine ⟨_, @Statement.assign x s sAssign sEnd es e hes, ?_⟩
      simp only [List.append_assoc, List.cons_append, List.nil_append]
  · rintro ⟨us, hus, rfl⟩
    cases hus with
    | @assign _ _ sAssign sEnd es e he =>
      have hvalue := (reads_expression (ends_of_none rfl)).2 ⟨es, he, (rfl : _ = es ++ ⟨.semicolon, sEnd⟩ :: rest)⟩
      rw [List.cons_append, List.append_assoc, assignment]
      · simp only [reads_bind, reads_pure, exists_prop, reads_expect]
        exact ⟨sAssign, _, rfl, e, _, hvalue, sEnd, rest, rfl, rfl, rfl⟩
      · rintro _ _ ⟨⟩
    | @store _ _ sOpen sClose sAssign sEnd is es i e hi he =>
      have hvalue := (reads_expression (ends_of_none rfl)).2 ⟨es, he, (rfl : _ = es ++ ⟨.semicolon, sEnd⟩ :: rest)⟩
      have hindex := (reads_expression (ends_of_none rfl)).2 ⟨is, hi, (rfl : _ = is ++ ⟨.closeSquare, sClose⟩ ::
        ⟨.assign, sAssign⟩ :: (es ++ ⟨.semicolon, sEnd⟩ :: rest))⟩
      rw [List.cons_append, List.append_assoc, List.cons_append, List.cons_append, List.append_assoc, assignment]
      simp only [reads_bind, reads_pure, exists_prop, reads_expect]
      exact ⟨i, _, hindex, sClose, _, rfl, sAssign, _, rfl, e, _, hvalue, sEnd, rest, rfl, rfl, rfl⟩

mutual

theorem statement_sound {ts rest : Tokens} {s : Stmt} (h : Reads (statement ts) s rest) :
    Splits Statement ts s rest := by
  rw [statement.eq_def] at h
  split at h
  · rename_i sOpen ts
    simp only [reads_bind, reads_pure, exists_prop, reads_expect] at h
    obtain ⟨body, _, hb, sClose, _, rfl, rfl, rfl⟩ := h
    obtain ⟨us, hus, rfl⟩ := statements_sound hb
    exact ⟨_, .block hus, by rw [List.append_assoc]; rfl⟩
  · rename_i sIf ts
    simp only [reads_bind, reads_pure, exists_prop, reads_expect, reads_parenthesized] at h
    obtain ⟨c, _, ⟨cs, hc, rfl⟩, yes, _, hy, sElse, _, rfl, no, _, hn, rfl, rfl⟩ := h
    have := hy.lt
    obtain ⟨ys, hys, rfl⟩ := statement_sound hy
    obtain ⟨ns, hns, rfl⟩ := statement_sound hn
    exact ⟨_, .ite hc hys hns, by simp only [List.append_assoc, List.cons_append]; rfl⟩
  · rename_i sWhile ts
    simp only [reads_bind, reads_pure, exists_prop, reads_parenthesized] at h
    obtain ⟨c, _, ⟨cs, hc, rfl⟩, body, _, hb, rfl, rfl⟩ := h
    obtain ⟨bs, hbs, rfl⟩ := statement_sound hb
    exact ⟨_, .loop hc hbs, by simp only [List.append_assoc, List.cons_append]; rfl⟩
  · rename_i sPrint ts
    simp only [reads_bind, reads_pure, exists_prop, reads_expect, reads_parenthesized] at h
    obtain ⟨e, _, ⟨es, he, rfl⟩, sEnd, _, rfl, rfl, rfl⟩ := h
    exact ⟨_, .print he, by rw [List.append_assoc]; rfl⟩
  · rename_i x sName ts
    simp only [reads_bind, reads_pure, exists_prop, reads_assignment] at h
    obtain ⟨_, _, ⟨us, hus, rfl⟩, rfl, rfl⟩ := h
    exact ⟨_, hus, rfl⟩
  · exact absurd h not_reads_refuse
termination_by (ts.length, 0)

theorem statements_sound {stop : Token} : ∀ {ts rest : Tokens} {ss : List Stmt},
    Reads (statements stop ts) ss rest → Splits (Star Statement) ts ss rest
  | [], rest, ss, h => by
    rw [statements] at h
    obtain ⟨rfl, rfl⟩ := reads_ok.1 h
    exact ⟨[], .nil, rfl⟩
  | t :: ts, rest, ss, h => by
    rw [statements] at h
    split at h
    · obtain ⟨rfl, rfl⟩ := reads_ok.1 h
      exact ⟨[], .nil, rfl⟩
    · simp only [reads_bind, reads_pure, exists_prop] at h
      obtain ⟨s, _, hs, ss, _, hss, rfl, rfl⟩ := h
      have := hs.lt
      obtain ⟨us, hus, heq⟩ := statement_sound hs
      obtain ⟨vs, hvs, rfl⟩ := statements_sound hss
      exact ⟨us ++ vs, .cons hus hvs, by rw [heq, List.append_assoc]⟩
termination_by ts => (ts.length, 1)

end

theorem Statement.head {ts : Tokens} {s : Stmt} (h : Statement ts s) :
    ∃ t us, ts = t :: us ∧ t.val ≠ .closeCurly ∧ t.val ≠ .keyword .returnKw := by
  cases h <;> exact ⟨_, _, rfl, nofun, nofun⟩

mutual

theorem statement_complete : ∀ {us : Tokens} {s : Stmt}, Statement us s → ∀ rest : Tokens,
    Reads (statement (us ++ rest)) s rest
  | _, _, @Statement.block sOpen sClose ts body h, rest => by
    have hbody := statements_complete h (⟨.closeCurly, sClose⟩ :: rest) (.inl rfl) rfl
    rw [List.append_assoc, statement.eq_def]
    simp only [List.cons_append, List.nil_append, reads_bind, reads_pure, exists_prop, reads_expect]
    exact ⟨body, _, hbody, sClose, rest, rfl, rfl, rfl⟩
  | _, _, @Statement.ite s sElse cs ys ns c yes no hc hy hn, rest => by
    have hyes := statement_complete hy (⟨.keyword .elseKw, sElse⟩ :: (ns ++ rest))
    have hno := statement_complete hn rest
    rw [List.append_assoc, List.append_assoc, statement.eq_def]
    simp only [List.cons_append, reads_bind, reads_pure, exists_prop, reads_expect, reads_parenthesized]
    exact ⟨c, _, ⟨cs, hc, rfl⟩, yes, _, hyes, sElse, _, rfl, no, rest, hno, rfl, rfl⟩
  | _, _, @Statement.loop s cs bs c body hc hb, rest => by
    have hbody := statement_complete hb rest
    rw [List.append_assoc, statement.eq_def]
    simp only [List.cons_append, reads_bind, reads_pure, exists_prop, reads_parenthesized]
    exact ⟨c, _, ⟨cs, hc, rfl⟩, body, rest, hbody, rfl, rfl⟩
  | _, _, @Statement.print s sEnd es e he, rest => by
    rw [List.append_assoc, statement.eq_def]
    simp only [List.cons_append, reads_bind, reads_pure, exists_prop, reads_expect, reads_parenthesized]
    exact ⟨e, _, ⟨es, he, rfl⟩, sEnd, rest, rfl, rfl, rfl⟩
  | _, _, @Statement.assign x s sAssign sEnd es e he, rest => by
    have hassign := reads_assignment.2 ⟨_, @Statement.assign x s sAssign sEnd es e he, (rfl : _ = _ ++ rest)⟩
    rw [List.cons_append, statement.eq_def]
    simp only [reads_bind, reads_pure, exists_prop]
    exact ⟨_, rest, hassign, rfl, rfl⟩
  | _, _, @Statement.store x s sOpen sClose sAssign sEnd is es i e hi he, rest => by
    have hstore := reads_assignment.2 ⟨_, @Statement.store x s sOpen sClose sAssign sEnd is es i e hi he,
      (rfl : _ = _ ++ rest)⟩
    rw [List.cons_append, statement.eq_def]
    simp only [reads_bind, reads_pure, exists_prop]
    exact ⟨_, rest, hstore, rfl, rfl⟩

theorem statements_complete : ∀ {us : Tokens} {ss : List Stmt}, Star Statement us ss → ∀ {stop : Token} (rest : Tokens),
    stop = .closeCurly ∨ stop = .keyword .returnKw → next? rest = some stop → Reads (statements stop (us ++ rest)) ss rest
  | _, _, .nil, stop, rest, _, hrest => by
    cases rest with
    | nil => cases hrest
    | cons t rest =>
      rw [List.nil_append, statements, if_pos (Option.some.inj hrest)]
      exact reads_ok.2 ⟨rfl, rfl⟩
  | _, _, @Star.cons _ _ us vs s ss hs hss, stop, rest, hstop, hrest => by
    have hfirst := statement_complete hs (vs ++ rest)
    have hmore := statements_complete hss rest hstop hrest
    obtain ⟨t, us, rfl, hcurly, hreturn⟩ := hs.head
    have hne : t.val ≠ stop := by
      rcases hstop with rfl | rfl
      · exact hcurly
      · exact hreturn
    rw [List.append_assoc, List.cons_append, statements, if_neg hne]
    simp only [reads_bind, reads_pure, exists_prop]
    exact ⟨s, _, hfirst, ss, rest, hmore, rfl, rfl⟩

end

theorem reads_statement {ts rest : Tokens} {s : Stmt} : Reads (statement ts) s rest ↔ Splits Statement ts s rest := by
  refine ⟨statement_sound, ?_⟩
  rintro ⟨us, hus, rfl⟩
  exact statement_complete hus rest

/-- **No statement begins as a variable declaration does.** -/
theorem Statement.not_varDecl {us rest vs : Tokens} {s : Stmt} {d : Declaration} (h : Statement us s) :
    ¬ Splits VarDecl (us ++ rest) d vs := by
  rintro ⟨ws, ⟨⟨hty, hname⟩⟩, heq⟩
  cases hname
  cases hty <;> cases h <;> simp at heq

theorem Star.not_varDecl {us rest : Tokens} {ss : List Stmt} (h : Star Statement us ss)
    (hrest : ∀ d vs, ¬ Splits VarDecl rest d vs) (d : Declaration) (vs : Tokens) : ¬ Splits VarDecl (us ++ rest) d vs := by
  cases h with
  | nil => exact hrest d vs
  | cons hs _ =>
    rw [List.append_assoc]
    exact hs.not_varDecl

theorem not_varDecl_of_keyword {k : Keyword} {d : Declaration} {vs : Tokens} (s : Span) (ts : Tokens)
    (hint : k ≠ .intKw) (hboolean : k ≠ .booleanKw) : ¬ Splits VarDecl (⟨.keyword k, s⟩ :: ts) d vs := by
  rintro ⟨ws, ⟨⟨hty, hname⟩⟩, heq⟩
  cases hty with
  | intArray | int => exact hint (Token.keyword.inj (congrArg Located.val (List.cons.inj heq).1))
  | boolean => exact hboolean (Token.keyword.inj (congrArg Located.val (List.cons.inj heq).1))
  | object => cases (congrArg Located.val (List.cons.inj heq).1)

/-! ## Methods -/

theorem Fixed.next {t : Token} {expected : List Token} {us : Tokens} (h : Fixed (t :: expected) us) (rest : Tokens) :
    next? (us ++ rest) = some t := by
  obtain ⟨u, us, rfl, rfl, -⟩ := List.map_eq_cons_iff.1 h
  rfl

theorem Fixed.ends {t : Token} {expected : List Token} {us : Tokens} (h : Fixed (t :: expected) us)
    (ht : carriesOn? t = none) (rest : Tokens) {k : Nat} : Ends k (us ++ rest) := by
  obtain ⟨u, us, rfl, rfl, -⟩ := List.map_eq_cons_iff.1 h
  exact ends_of_none ht

theorem reads_method {ts rest : Tokens} {m : Method} : Reads (method ts) m rest ↔ Splits MethodDecl ts m rest := by
  simp only [method, reads_bind, reads_pure, exists_prop, reads_expect, reads_expectAll, reads_identifier]
  constructor
  · rintro ⟨s, ts₁, rfl, returns, ts₂, ht, name, ts₃, ⟨ns, hn, rfl⟩, sOpen, ts₄, rfl, formals, _, hf, _, ts₆,
      ⟨bs, hb, rfl⟩, body, _, hs, sReturn, ts₈, rfl, result, _, he, _, rest, ⟨zs, hz, rfl⟩, rfl, rfl⟩
    obtain ⟨us, hty, rfl⟩ := splits_of_reads_type ht
    obtain ⟨fs, hfs, rfl⟩ := (reads_formals (hb.next ts₆)).1 hf
    obtain ⟨⟨ls, hls, hts⟩, -⟩ := variableDeclarations_sound ts₆
    obtain ⟨ss, hss, heq⟩ := statements_sound hs
    obtain ⟨es, hes, rfl⟩ := (reads_expression (hz.ends rfl rest)).1 he
    refine ⟨_, @MethodDecl.intro s sOpen sReturn us ns fs bs ls ss es zs _ _ _ _ _ _ hty hn hfs hb hls hss hes hz, ?_⟩
    rw [hts, heq]
    simp only [List.append_assoc, List.cons_append]
  · rintro ⟨us, hus, rfl⟩
    cases hus with
    | @intro s sOpen sReturn ts ns fs bs ls ss es zs returns name formals locals body result hty hn hf hb hl hs he hz =>
      have hresult := (reads_expression (hz.ends rfl rest)).2 ⟨es, he, rfl⟩
      have hbody := statements_complete hs (⟨.keyword .returnKw, sReturn⟩ :: (es ++ (zs ++ rest))) (.inr rfl) rfl
      obtain ⟨hds, hrest⟩ := variableDeclarations_complete hl (hs.not_varDecl fun _ _ =>
        not_varDecl_of_keyword (k := .returnKw) sReturn (es ++ (zs ++ rest)) (by decide) (by decide))
      rw [← hrest] at hbody
      have hformals := (reads_formals (hb.next (ls ++ (ss ++ ⟨.keyword .returnKw, sReturn⟩ :: (es ++ (zs ++ rest)))))).2
        ⟨fs, hf, rfl⟩
      have hreturns := (reads_type (by cases hn; rintro ⟨⟩)).2 ⟨ts, hty, (rfl : _ = ts ++ (ns ++ ⟨.openParen, sOpen⟩ ::
        (fs ++ (bs ++ (ls ++ (ss ++ ⟨.keyword .returnKw, sReturn⟩ :: (es ++ (zs ++ rest))))))))⟩
      simp only [List.append_assoc, List.cons_append]
      exact ⟨s, _, rfl, returns, _, hreturns, name, _, ⟨ns, hn, rfl⟩, sOpen, _, rfl, formals, _, hformals, (), _,
        ⟨bs, hb, rfl⟩, body, _, hbody, sReturn, _, rfl, result, _, hresult, (), rest, ⟨zs, hz, rfl⟩, by rw [hds], rfl⟩

theorem MethodDecl.head {ts : Tokens} {m : Method} (h : MethodDecl ts m) :
    ∃ s us, ts = ⟨.keyword .publicKw, s⟩ :: us := by
  cases h
  exact ⟨_, _, rfl⟩

/-- Methods are read for as long as the next token is `public`. -/
theorem methods_sound {ts rest : Tokens} {ms : List Method} (h : Reads (methods ts) ms rest) :
    Splits (Star MethodDecl) ts ms rest := by
  rw [methods.eq_def] at h
  split at h
  · rename_i s ts
    simp only [reads_bind, reads_pure, exists_prop] at h
    obtain ⟨m, _, hm, ms, rest, hms, rfl, rfl⟩ := h
    have := hm.lt
    obtain ⟨us, hus, heq⟩ := reads_method.1 hm
    obtain ⟨vs, hvs, rfl⟩ := methods_sound hms
    exact ⟨us ++ vs, .cons hus hvs, by rw [heq, List.append_assoc]⟩
  · obtain ⟨rfl, rfl⟩ := reads_ok.1 h
    exact ⟨[], .nil, rfl⟩
termination_by ts.length
decreasing_by simp_all

theorem methods_complete {us : Tokens} {ms : List Method} (h : Star MethodDecl us ms) (rest : Tokens)
    (hrest : next? rest ≠ some (.keyword .publicKw)) : Reads (methods (us ++ rest)) ms rest := by
  induction h with
  | nil =>
    rw [List.nil_append, methods.eq_def]
    split
    · exact absurd rfl hrest
    · exact reads_ok.2 ⟨rfl, rfl⟩
  | @cons us vs m ms hm _ hmore =>
    have hfirst := reads_method.2 ⟨us, hm, (rfl : _ = us ++ (vs ++ rest))⟩
    obtain ⟨s, us, rfl⟩ := hm.head
    rw [List.append_assoc, List.cons_append, methods.eq_def]
    simp only [reads_bind, reads_pure, exists_prop]
    exact ⟨m, _, hfirst, ms, rest, hmore, rfl, rfl⟩

/-! ## Classes -/

theorem reads_parent {ts rest : Tokens} {c : Option (Located Name)} (hrest : next? rest ≠ some (.keyword .extendsKw)) :
    Reads (parent ts) c rest ↔ Splits Extends ts c rest := by
  unfold parent
  split
  · rename_i s ts
    simp only [reads_bind, reads_pure, exists_prop, reads_identifier]
    constructor
    · rintro ⟨name, _, ⟨us, hus, rfl⟩, rfl, rfl⟩
      exact ⟨_, .parent hus, rfl⟩
    · rintro ⟨us, hus, heq⟩
      cases hus with
      | root => exact absurd (congrArg next? heq).symm hrest
      | parent hname =>
        obtain ⟨-, rfl⟩ := List.cons.inj heq
        exact ⟨_, rest, ⟨_, hname, rfl⟩, rfl, rfl⟩
  · rename_i hne
    rw [reads_ok]
    constructor
    · rintro ⟨rfl, rfl⟩
      exact ⟨[], .root, rfl⟩
    · rintro ⟨us, hus, rfl⟩
      cases hus with
      | root => exact ⟨rfl, rfl⟩
      | parent _ => exact absurd rfl (hne _ _)

theorem Star.not_public {us rest : Tokens} {ms : List Method} (h : Star MethodDecl us ms)
    (hrest : ∀ d vs, ¬ Splits VarDecl rest d vs) (d : Declaration) (vs : Tokens) : ¬ Splits VarDecl (us ++ rest) d vs := by
  cases h with
  | nil => exact hrest d vs
  | cons hm _ =>
    obtain ⟨s, us, rfl⟩ := hm.head
    exact not_varDecl_of_keyword _ _ nofun nofun

theorem not_varDecl_closeCurly {d : Declaration} {vs : Tokens} (s : Span) (ts : Tokens) :
    ¬ Splits VarDecl (⟨.closeCurly, s⟩ :: ts) d vs := by
  rintro ⟨ws, ⟨⟨hty, hname⟩⟩, heq⟩
  cases hty <;> cases congrArg Located.val (List.cons.inj heq).1

theorem reads_classDeclaration {ts rest : Tokens} {c : ClassDecl} :
    Reads (classDeclaration ts) c rest ↔ Splits Class ts c rest := by
  constructor
  · intro h
    unfold classDeclaration at h
    split at h
    · rename_i s ts
      simp only [reads_bind, reads_pure, exists_prop, reads_expect, reads_identifier] at h
      obtain ⟨name, _, ⟨ns, hn, rfl⟩, parent, _, hp, sOpen, ts₁, rfl, methods, _, hm, sClose, rest, rfl, rfl, rfl⟩ := h
      obtain ⟨ps, hps, rfl⟩ := (reads_parent (by rintro ⟨⟩)).1 hp
      obtain ⟨⟨fs, hfs, hts⟩, -⟩ := variableDeclarations_sound ts₁
      obtain ⟨ms, hms, heq⟩ := methods_sound hm
      refine ⟨_, @Class.intro s sOpen sClose ns ps fs ms _ _ _ _ hn hps hfs hms, ?_⟩
      rw [hts, heq]
      simp only [List.append_assoc, List.cons_append, List.nil_append]
    · exact absurd h not_reads_refuse
  · rintro ⟨us, hus, rfl⟩
    cases hus with
    | @intro s sOpen sClose ns ps fs ms name parent fields methods hn hp hf hm =>
      have hmethods := methods_complete hm (⟨.closeCurly, sClose⟩ :: rest) (by rintro ⟨⟩)
      obtain ⟨hds, hrest⟩ := variableDeclarations_complete hf (hm.not_public fun _ _ =>
        not_varDecl_closeCurly sClose rest)
      rw [← hrest] at hmethods
      have hparent := (reads_parent (by rintro ⟨⟩)).2 ⟨ps, hp, (rfl : _ = ps ++ ⟨.openCurly, sOpen⟩ ::
        (fs ++ (ms ++ ⟨.closeCurly, sClose⟩ :: rest)))⟩
      have hts : ⟨.keyword .classKw, s⟩ :: ns ++ ps ++ ⟨.openCurly, sOpen⟩ :: fs ++ ms ++ [⟨.closeCurly, sClose⟩] ++ rest =
          ⟨.keyword .classKw, s⟩ :: (ns ++ (ps ++ ⟨.openCurly, sOpen⟩ :: (fs ++ (ms ++ ⟨.closeCurly, sClose⟩ :: rest)))) := by
        simp only [List.append_assoc, List.cons_append, List.nil_append]
      rw [hts, classDeclaration]
      simp only [reads_bind, reads_pure, exists_prop, reads_expect, reads_identifier]
      exact ⟨name, _, ⟨ns, hn, rfl⟩, parent, _, hparent, sOpen, _, rfl, methods, _, hmethods, sClose, rest, rfl,
        by rw [hds], rfl⟩

theorem Class.head {ts : Tokens} {c : ClassDecl} (h : Class ts c) : ∃ t us, ts = t :: us := by
  cases h
  exact ⟨_, _, rfl⟩

theorem classDeclarations_sound : ∀ {ts : Tokens} {cs : List ClassDecl}, classDeclarations ts = .ok cs → Star Class ts cs
  | [], cs, h => by
    rw [classDeclarations] at h
    cases h
    exact .nil
  | t :: ts, cs, h => by
    rw [classDeclarations, parsed_bind_eq_ok] at h
    simp only [bind_eq_ok, pure_eq_ok, exists_prop] at h
    obtain ⟨c, _, hc, cs, hcs, rfl⟩ := h
    obtain ⟨us, hus, heq⟩ := reads_classDeclaration.1 hc
    rw [heq]
    exact .cons hus (classDeclarations_sound hcs)
termination_by ts => ts.length
decreasing_by exact hc.lt

theorem classDeclarations_complete {ts : Tokens} {cs : List ClassDecl} (h : Star Class ts cs) :
    classDeclarations ts = .ok cs := by
  induction h with
  | nil => rw [classDeclarations]
  | @cons us vs c cs hc _ ih =>
    have hfirst := reads_classDeclaration.2 ⟨us, hc, (rfl : _ = us ++ vs)⟩
    obtain ⟨t, us, rfl⟩ := hc.head
    rw [List.cons_append, classDeclarations, parsed_bind_eq_ok]
    simp only [bind_eq_ok, pure_eq_ok, exists_prop]
    exact ⟨c, vs, hfirst, cs, ih, rfl⟩

theorem reads_mainClass {ts rest : Tokens} {c : MainClass} : Reads (mainClass ts) c rest ↔ Splits Main ts c rest := by
  simp only [mainClass, reads_bind, reads_pure, exists_prop, reads_expect, reads_expectAll, reads_identifier,
    reads_statement]
  constructor
  · rintro ⟨s, _, rfl, name, _, ⟨ns, hn, rfl⟩, _, _, ⟨hs, hh, rfl⟩, argument, _, ⟨as, ha, rfl⟩, _, _, ⟨bs, hb, rfl⟩,
      body, _, ⟨ss, hbody, rfl⟩, _, rest, ⟨zs, hz, rfl⟩, rfl, rfl⟩
    refine ⟨_, @Main.intro s ns hs as bs ss zs _ _ _ hn hh ha hb hbody hz, ?_⟩
    simp only [List.append_assoc, List.cons_append]
  · rintro ⟨us, hus, rfl⟩
    cases hus with
    | @intro s ns hs as bs ss zs name argument body hn hh ha hb hbody hz =>
      simp only [List.append_assoc, List.cons_append]
      exact ⟨s, _, rfl, name, _, ⟨ns, hn, rfl⟩, (), _, ⟨hs, hh, rfl⟩, argument, _, ⟨as, ha, rfl⟩, (), _, ⟨bs, hb, rfl⟩,
        body, _, ⟨ss, hbody, rfl⟩, (), rest, ⟨zs, hz, rfl⟩, rfl, rfl⟩

/-- **The parser accepts what the grammar yields, and answers the tree that yields it.** -/
theorem program_eq_ok {ts : Tokens} {p : Program} : Parse.program ts = .ok p ↔ Goal ts p := by
  rw [Parse.program, parsed_bind_eq_ok]
  simp only [bind_eq_ok, pure_eq_ok, exists_prop, reads_mainClass]
  constructor
  · rintro ⟨main, _, ⟨us, hmain, rfl⟩, classes, hclasses, rfl⟩
    exact .intro hmain (classDeclarations_sound hclasses)
  · rintro ⟨hmain, hclasses⟩
    exact ⟨_, _, ⟨_, hmain, rfl⟩, _, classDeclarations_complete hclasses, rfl⟩

end MiniJava.Grammar
