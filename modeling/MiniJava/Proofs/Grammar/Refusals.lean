import MiniJava.Proofs.Grammar.Spelling
/-!
# Where rules stop

Every rule of the parser keeps to the language of its construct (`Follows`).  What it reads is in the language; where it
refuses, what it has read begins one of the language, so that tokens could follow which complete it, and it blames the end
of the tokens just if it has come there.  Rules in a row keep to the languages in a row (`Follows.bind`), and one that
stops in the midst leaves out the rest of the row, which is never empty.

So a text is refused at the first token that the parser cannot go on with or at its end, and never late: what stands before
is the beginning of a program.  This holds also where a variable declaration was tried in vain, since its refusal is
dropped and the tokens are read again from where it began.
-/
namespace MiniJava

/-- The error says that the tokens ended where one more was expected. -/
def SyntaxError.AtEnd : SyntaxError → Prop
  | missingToken _ | unexpectedEnd => True
  | _ => False

theorem SyntaxError.atEnd_iff {e : SyntaxError} : e.AtEnd ↔ (∃ t, e = .missingToken t) ∨ e = .unexpectedEnd := by
  cases e <;> simp [AtEnd]

namespace Grammar

open Parse

variable {α β : Type} {n m : Nat}

/-! ## Languages -/

/-- **The token lists of a construct**, of which there is at least one. -/
structure Language where
  Has : Tokens → Prop
  nonempty : ∃ ts, Has ts

namespace Language

def token (t : Token) : Language := ⟨fun ts => ∃ s, ts = [⟨t, s⟩], [⟨t, .nowhere⟩], .nowhere, rfl⟩

def fixed (expected : List Token) : Language where
  Has := Fixed expected
  nonempty := ⟨expected.map (⟨·, .nowhere⟩), by simp [Fixed, Function.comp_def]⟩

/-- The lists that yield a construct. -/
def of (R : Tokens → α → Prop) (h : ∃ ts a, R ts a) : Language := ⟨fun ts => ∃ a, R ts a, h⟩

def seq (K L : Language) : Language where
  Has ts := ∃ us vs, K.Has us ∧ L.Has vs ∧ ts = us ++ vs
  nonempty := by
    obtain ⟨us, hus⟩ := K.nonempty
    obtain ⟨vs, hvs⟩ := L.nonempty
    exact ⟨us ++ vs, us, vs, hus, hvs, rfl⟩

/-- What can stand behind any list of the language so that it is still in the language. -/
def goingOn (K : Language) : Language where
  Has us := ∀ ts, K.Has ts → K.Has (ts ++ us)
  nonempty := ⟨[], fun ts hts => by rwa [List.append_nil]⟩

/-- **The tokens begin one of the language**: more can follow that complete them. -/
def Begins (L : Language) (us : Tokens) : Prop := ∃ more, L.Has (us ++ more)

variable {K L : Language} {us vs : Tokens}

theorem begins_nil (L : Language) : L.Begins [] := L.nonempty

theorem Begins.mono (h : K.Begins us) (hsub : ∀ ts, K.Has ts → L.Has ts) : L.Begins us := by
  obtain ⟨more, hmore⟩ := h
  exact ⟨more, hsub _ hmore⟩

theorem Begins.seq (h : K.Begins us) : (K.seq L).Begins us := by
  obtain ⟨more, hmore⟩ := h
  obtain ⟨vs, hvs⟩ := L.nonempty
  exact ⟨more ++ vs, us ++ more, vs, hmore, hvs, (List.append_assoc us more vs).symm⟩

theorem Begins.behind (hus : K.Has us) (h : L.Begins vs) : (K.seq L).Begins (us ++ vs) := by
  obtain ⟨more, hmore⟩ := h
  exact ⟨more, us, vs ++ more, hus, hmore, List.append_assoc us vs more⟩

theorem goingOn_nil (K : Language) : (goingOn K).Has [] := fun ts hts => by rwa [List.append_nil]

theorem goingOn_append (hus : (goingOn K).Has us) (hvs : (goingOn K).Has vs) : (goingOn K).Has (us ++ vs) :=
  fun ts hts => by
    rw [← List.append_assoc]
    exact hvs _ (hus _ hts)

end Language

open MiniJava.Grammar.Language

/-- **The rule has refused in time**: what it had read begins one of the language, and it blames the end of the tokens
just if it has come there. -/
def InTime (L : Language) (ts : Tokens) (e : Refusal) : Prop :=
  ∃ us, L.Begins us ∧ ts = us ++ e.rest ∧ (e.cause.AtEnd ↔ e.rest = [])

namespace InTime

variable {K L : Language} {us ts : Tokens} {e : Refusal}

theorem mono (h : InTime K ts e) (hsub : ∀ us, K.Has us → L.Has us) : InTime L ts e := by
  obtain ⟨us, hus, hts⟩ := h
  exact ⟨us, hus.mono hsub, hts⟩

theorem seq (h : InTime K ts e) : InTime (K.seq L) ts e := by
  obtain ⟨us, hus, hts⟩ := h
  exact ⟨us, hus.seq, hts⟩

theorem behind (hus : K.Has us) (h : InTime L ts e) : InTime (K.seq L) (us ++ ts) e := by
  obtain ⟨vs, hvs, hts, hend⟩ := h
  exact ⟨us ++ vs, hvs.behind hus, by rw [hts, List.append_assoc], hend⟩

end InTime

/-- **The rule keeps to the language**, whether it reads or refuses. -/
def Follows (L : Language) (ts : Tokens) : Except Refusal (Parsed α n) → Prop
  | .ok p => ∃ us, L.Has us ∧ ts = us ++ p.rest
  | .error e => InTime L ts e

namespace Follows

variable {K L : Language} {us ts : Tokens} {r : Except Refusal (Parsed α n)}

theorem mono (h : Follows K ts r) (hsub : ∀ us, K.Has us → L.Has us) : Follows L ts r := by
  cases r with
  | ok p =>
    obtain ⟨us, hus, hts⟩ := h
    exact ⟨us, hsub us hus, hts⟩
  | error e => exact InTime.mono h hsub

/-- The rule goes on behind what has been read. -/
theorem behind (hus : K.Has us) (h : Follows L ts r) : Follows (K.seq L) (us ++ ts) r := by
  cases r with
  | ok p =>
    obtain ⟨vs, hvs, hts⟩ := h
    exact ⟨us ++ vs, ⟨us, vs, hus, hvs, rfl⟩, by rw [hts, List.append_assoc]⟩
  | error e => exact InTime.behind hus h

theorem cons {t : Located Token} (h : Follows L ts r) : Follows ((token t.val).seq L) (t :: ts) r :=
  @behind _ _ _ _ [t] _ _ ⟨t.span, rfl⟩ h

/-- **Steps in a row keep to the languages in a row.** -/
theorem bind {f : Parsed α n → Except Refusal (Parsed β m)} (hr : Follows K ts r)
    (hf : ∀ a us (h : us.length < n), Follows L us (f ⟨a, us, h⟩)) : Follows (K.seq L) ts (r >>= f) := by
  cases r with
  | ok p =>
    obtain ⟨us, hus, rfl⟩ := hr
    exact behind hus (hf p.val p.rest p.lt)
  | error e => exact InTime.seq hr

/-- The last step of a row. -/
theorem last {f : Parsed α n → Except Refusal (Parsed β m)} (hr : Follows L ts r)
    (hf : ∀ a us (h : us.length < n), ∃ b h', f ⟨a, us, h⟩ = .ok ⟨b, us, h'⟩ := by exact fun _ _ _ => ⟨_, _, rfl⟩) :
    Follows L ts (r >>= f) := by
  cases r with
  | ok p =>
    obtain ⟨b, h', hb⟩ := hf p.val p.rest p.lt
    show Follows L ts (f ⟨p.val, p.rest, p.lt⟩)
    rw [hb]
    exact hr
  | error e => exact hr

end Follows

/-! ## Tokens and declarations -/

theorem refuse_follows (L : Language) {cause : SyntaxError} (hcause : ¬ cause.AtEnd) (ts : Tokens) :
    Follows L ts (refuse cause ts : Except Refusal (Parsed α n)) := by
  cases ts with
  | nil => exact ⟨[], L.begins_nil, rfl, iff_of_true trivial rfl⟩
  | cons t ts => exact ⟨[], L.begins_nil, rfl, iff_of_false hcause (List.cons_ne_nil t ts)⟩

theorem expect_follows (t : Token) (ts : Tokens) : Follows (token t) ts (expect t ts) := by
  cases ts with
  | nil => exact ⟨[], begins_nil _, rfl, iff_of_true trivial rfl⟩
  | cons u ts =>
    rw [expect]
    split
    · rename_i hu
      exact ⟨[u], ⟨u.span, by rw [← hu]⟩, rfl⟩
    · exact ⟨[], begins_nil _, rfl, iff_of_false id (List.cons_ne_nil u ts)⟩

theorem expectAll_follows : ∀ (expected : List Token) (ts : Tokens), Follows (fixed expected) ts (expectAll expected ts)
  | [], ts => ⟨[], rfl, rfl⟩
  | t :: expected, ts => by
    refine .mono ((expect_follows t ts).bind fun _ us _ => (expectAll_follows expected us).last) ?_
    rintro _ ⟨_, vs, ⟨s, rfl⟩, hvs, rfl⟩
    exact congrArg (t :: ·) hvs

def ident : Language := of Id ⟨_, _, @Id.intro "" .nowhere⟩

def typeName : Language := of TypeName ⟨_, _, @TypeName.int .nowhere⟩

theorem exists_decl : ∃ ts d, Decl ts d := ⟨_, _, .intro (@TypeName.int .nowhere) (@Id.intro "" .nowhere)⟩

theorem identifier_follows (ts : Tokens) : Follows ident ts (identifier ts) := by
  unfold identifier
  split
  · exact ⟨[_], ⟨_, .intro⟩, rfl⟩
  · exact refuse_follows _ id _

theorem type_follows (ts : Tokens) : Follows typeName ts (type ts) := by
  unfold type
  split
  · exact ⟨[_], ⟨_, .boolean⟩, rfl⟩
  · refine .mono (.cons (.cons ((expect_follows _ _).last))) ?_
    rintro _ ⟨_, _, ⟨s, rfl⟩, ⟨_, _, ⟨sOpen, rfl⟩, ⟨sClose, rfl⟩, rfl⟩, rfl⟩
    exact ⟨_, .intArray⟩
  · exact ⟨[_], ⟨_, .int⟩, rfl⟩
  · exact ⟨[_], ⟨_, .object⟩, rfl⟩
  · exact refuse_follows _ id _

theorem declaration_follows (ts : Tokens) : Follows (of Decl exists_decl) ts (declaration ts) := by
  refine .mono ((type_follows ts).bind fun _ us _ => (identifier_follows us).last) ?_
  rintro _ ⟨us, vs, ⟨_, hty⟩, ⟨_, hname⟩, rfl⟩
  exact ⟨_, .intro hty hname⟩

/-- Any number of constructs with a comma before each. -/
def commas (R : Tokens → α → Prop) : Language := of (Commas R) ⟨[], [], .nil⟩

def separated (R : Tokens → α → Prop) : Language := of (Separated R) ⟨[], [], .nil⟩

def star (R : Tokens → α → Prop) : Language := of (Star R) ⟨[], [], .nil⟩

section

variable {R : Tokens → α → Prop} {hR : ∃ ts a, R ts a} {ts : Tokens}

theorem has_commas (h : ((token .comma).seq ((of R hR).seq (commas R))).Has ts) : (commas R).Has ts := by
  obtain ⟨_, _, ⟨s, rfl⟩, ⟨us, vs, ⟨a, ha⟩, ⟨as, has⟩, rfl⟩, rfl⟩ := h
  exact ⟨a :: as, by simpa using Commas.cons (s := s) ha has⟩

theorem has_separated (h : ((of R hR).seq (commas R)).Has ts) : (separated R).Has ts := by
  obtain ⟨us, vs, ⟨a, ha⟩, ⟨as, has⟩, rfl⟩ := h
  exact ⟨a :: as, .cons ha has⟩

theorem has_star (h : ((of R hR).seq (star R)).Has ts) : (star R).Has ts := by
  obtain ⟨us, vs, ⟨a, ha⟩, ⟨as, has⟩, rfl⟩ := h
  exact ⟨a :: as, .cons ha has⟩

end

theorem moreDeclarations_follows (ts : Tokens) : Follows (commas Decl) ts (moreDeclarations ts) := by
  unfold moreDeclarations
  split
  · refine .mono (.cons ((declaration_follows _).bind fun _ us _ =>
      (moreDeclarations_follows us).last)) fun _ => has_commas
  · exact ⟨[], ⟨[], .nil⟩, rfl⟩
termination_by ts.length
decreasing_by all_goals subst_vars; decreasing_tactic

theorem formals_follows (ts : Tokens) : Follows (separated Decl) ts (formals ts) := by
  unfold formals
  split
  · exact ⟨[], ⟨[], .nil⟩, rfl⟩
  · refine .mono ((declaration_follows _).bind fun _ us _ =>
      (moreDeclarations_follows us).last) fun _ => has_separated

/-- Variable declarations are read as far as there are any, and what follows them is read behind them. -/
theorem variableDeclarations_follows {L : Language} {ts : Tokens} {r : Except Refusal (Parsed α n)}
    (h : Follows L (variableDeclarations ts).rest r) : Follows ((star VarDecl).seq L) ts r := by
  obtain ⟨⟨us, hus, hts⟩, -⟩ := variableDeclarations_sound ts
  rw [hts]
  exact .behind ⟨_, hus⟩ h

/-! ## Expressions -/

theorem exists_exp {k : Nat} (hk : k ≤ 6) : ∃ ts e, Exp k ts e := ⟨_, _, (@Exp.self .nowhere).loosen hk⟩

/-- The expressions of layer `k`. -/
abbrev exp (k : Nat) (hk : k ≤ 6 := by decide) : Language := of (Exp k) (exists_exp hk)

mutual

theorem operation_follows {l : Nat} (hl : l ≤ levels) (ts : Tokens) :
    Follows (exp l (Nat.le_trans hl (by decide))) ts (operation l ts) := by
  rw [operation]
  split
  · rename_i hlt
    refine .mono ((operation_follows hlt ts).bind fun left us _ =>
      (operands_follows hlt left us).last) ?_
    rintro _ ⟨us, vs, ⟨e, he⟩, hvs, rfl⟩
    exact hvs us ⟨e, .looser he⟩
  · obtain rfl : l = levels := by omega
    exact negation_follows ts
termination_by (ts.length, 3 + (levels - l))

/-- The left operand was read before, so that what is read here is to go on from any. -/
theorem operands_follows {l : Nat} (hl : l < levels) (left : Expr) (ts : Tokens) :
    Follows (goingOn (exp l (Nat.le_trans (Nat.le_of_lt hl) (by decide)))) ts (operands l left ts) := by
  rw [operands.eq_def]
  split
  · exact ⟨[], goingOn_nil _, rfl⟩
  · split
    · rename_i op hop
      split
      · rename_i hlevel
        subst hlevel
        refine .mono (.cons ((operation_follows hl _).bind fun right us _ =>
          (operands_follows hl (.binary (unmarked left.span right.span) left op right) us).last)) ?_
        rintro _ ⟨_, _, ⟨s, rfl⟩, ⟨rs, vs, ⟨_, hr⟩, hvs, rfl⟩, rfl⟩
        refine @goingOn_append _ (⟨_, s⟩ :: rs) vs (fun _ hls => ?_) hvs
        obtain ⟨_, hleft⟩ := hls
        exact ⟨_, .binary (operator?_eq_some hop) hleft hr⟩
      · exact ⟨[], goingOn_nil _, rfl⟩
    · exact ⟨[], goingOn_nil _, rfl⟩
termination_by (ts.length, 0)
decreasing_by all_goals subst_vars; decreasing_tactic

theorem negation_follows (ts : Tokens) : Follows (exp 4) ts (negation ts) := by
  rw [negation.eq_def]
  split
  · refine .mono (.cons ((negation_follows _).last)) ?_
    rintro _ ⟨_, us, ⟨s, rfl⟩, ⟨_, he⟩, rfl⟩
    exact ⟨_, .not he⟩
  · refine .mono ((atom_follows _).bind fun e us _ => (suffixes_follows e us).last) ?_
    rintro _ ⟨us, vs, ⟨e, he⟩, hvs, rfl⟩
    obtain ⟨e', he'⟩ := hvs us ⟨e, .looser he⟩
    exact ⟨e', .looser he'⟩
termination_by (ts.length, 1)
decreasing_by all_goals subst_vars; decreasing_tactic

theorem suffixes_follows (e : Expr) (ts : Tokens) : Follows (goingOn (exp 5)) ts (suffixes e ts) := by
  rw [suffixes.eq_def]
  split
  · refine .mono (.cons ((operation_follows (Nat.zero_le _) _).bind fun i us _ => (expect_follows .closeSquare us).bind
      fun close vs _ => (suffixes_follows (.index (unmarked e.span close) e i) vs).last)) ?_
    rintro _ ⟨_, _, ⟨sOpen, rfl⟩, ⟨is, _, ⟨i, hi⟩, ⟨_, vs, ⟨sClose, rfl⟩, hvs, rfl⟩, rfl⟩, rfl⟩
    have hindex : (goingOn (exp 5)).Has (⟨.openSquare, sOpen⟩ :: is ++ [⟨.closeSquare, sClose⟩]) := fun _ ⟨_, ha⟩ =>
      ⟨_, by simpa using @Exp.index sOpen sClose _ _ _ _ ha hi⟩
    simpa using goingOn_append hindex hvs
  · refine .mono (.cons (.cons ((suffixes_follows _ _).last))) ?_
    rintro _ ⟨_, _, ⟨s, rfl⟩, ⟨_, vs, ⟨sWord, rfl⟩, hvs, rfl⟩, rfl⟩
    have hlength : (goingOn (exp 5)).Has [⟨.period, s⟩, ⟨.keyword .lengthKw, sWord⟩] := fun _ ⟨_, ha⟩ => ⟨_, .length ha⟩
    simpa using goingOn_append hlength hvs
  · refine .mono (.cons ((identifier_follows _).bind fun method us _ => (expect_follows .openParen us).bind fun _ vs _ =>
      (arguments_follows vs).bind fun args ws _ => (expect_follows .closeParen ws).bind fun close xs _ =>
        (suffixes_follows (.call (unmarked e.span close) e method args none) xs).last)) ?_
    rintro _ ⟨_, _, ⟨s, rfl⟩, ⟨ms, _, ⟨m, hm⟩, ⟨_, _, ⟨sOpen, rfl⟩, ⟨as, _, ⟨args, has⟩, ⟨_, vs, ⟨sClose, rfl⟩, hvs,
      rfl⟩, rfl⟩, rfl⟩, rfl⟩, rfl⟩
    have hcall : (goingOn (exp 5)).Has (⟨.period, s⟩ :: ms ++ ⟨.openParen, sOpen⟩ :: as ++ [⟨.closeParen, sClose⟩]) :=
      fun rs ⟨r, hr⟩ => ⟨_, by simpa using @Exp.call s sOpen sClose _ _ _ _ _ _ hr hm has⟩
    simpa using goingOn_append hcall hvs
  · exact ⟨[], goingOn_nil _, rfl⟩
termination_by (ts.length, 0)
decreasing_by all_goals subst_vars; decreasing_tactic

theorem arguments_follows (ts : Tokens) : Follows (separated (Exp 0)) ts (arguments ts) := by
  rw [arguments.eq_def]
  split
  · exact ⟨[], ⟨[], .nil⟩, rfl⟩
  · refine .mono ((operation_follows (Nat.zero_le _) _).bind fun _ us _ =>
      (moreArguments_follows us).last) fun _ => has_separated
termination_by (ts.length, 4 + levels)

theorem moreArguments_follows (ts : Tokens) : Follows (commas (Exp 0)) ts (moreArguments ts) := by
  rw [moreArguments.eq_def]
  split
  · refine .mono (.cons ((operation_follows (Nat.zero_le _) _).bind fun _ us _ =>
      (moreArguments_follows us).last)) fun _ => has_commas
  · exact ⟨[], ⟨[], .nil⟩, rfl⟩
termination_by (ts.length, 0)
decreasing_by all_goals subst_vars; decreasing_tactic

theorem atom_follows (ts : Tokens) : Follows (exp 6) ts (atom ts) := by
  rw [atom.eq_def]
  split
  · exact ⟨[_], ⟨_, .literal⟩, rfl⟩
  · exact ⟨[_], ⟨_, .true⟩, rfl⟩
  · exact ⟨[_], ⟨_, .false⟩, rfl⟩
  · exact ⟨[_], ⟨_, .self⟩, rfl⟩
  · exact ⟨[_], ⟨_, .read⟩, rfl⟩
  · refine .mono (.cons ((operation_follows (Nat.zero_le _) _).bind fun _ us _ =>
      (expect_follows .closeParen us).last)) ?_
    rintro _ ⟨_, _, ⟨sOpen, rfl⟩, ⟨us, _, ⟨e, he⟩, ⟨sClose, rfl⟩, rfl⟩, rfl⟩
    exact ⟨_, .paren he⟩
  · refine .mono (.cons (.cons ((expect_follows .openSquare _).bind fun _ us _ =>
      (operation_follows (Nat.zero_le _) us).bind fun _ vs _ => (expect_follows .closeSquare vs).last))) ?_
    rintro _ ⟨_, _, ⟨s, rfl⟩, ⟨_, _, ⟨sInt, rfl⟩, ⟨_, _, ⟨sOpen, rfl⟩, ⟨ns, _, ⟨n, hn⟩, ⟨sClose, rfl⟩, rfl⟩, rfl⟩,
      rfl⟩, rfl⟩
    exact ⟨_, .newArray hn⟩
  · refine .mono (.cons ((identifier_follows _).bind fun _ us _ => (expect_follows .openParen us).bind fun _ vs _ =>
      (expect_follows .closeParen vs).last)) ?_
    rintro _ ⟨_, _, ⟨s, rfl⟩, ⟨cs, _, ⟨c, hc⟩, ⟨_, _, ⟨sOpen, rfl⟩, ⟨sClose, rfl⟩, rfl⟩, rfl⟩, rfl⟩
    exact ⟨_, .newObject hc⟩
  · exact refuse_follows _ id _
termination_by (ts.length, 0)
decreasing_by all_goals subst_vars; decreasing_tactic

end

/-! ## Statements -/

def condition : Language where
  Has ts := ∃ e, Condition ts e
  nonempty := by
    obtain ⟨es, e, he⟩ := exists_exp (Nat.zero_le 6)
    exact ⟨_, e, @Condition.intro .nowhere .nowhere es e he⟩

theorem exists_statement : ∃ ts s, Statement ts s := ⟨_, _, @Statement.block .nowhere .nowhere _ _ .nil⟩

/-- What can stand behind any name so that the whole is an assignment. -/
def assigned : Language where
  Has us := ∀ x s, ∃ st, Statement (⟨.ident x, s⟩ :: us) st
  nonempty := by
    obtain ⟨es, e, he⟩ := exists_exp (Nat.zero_le 6)
    exact ⟨_, fun x s => ⟨_, @Statement.assign x s .nowhere .nowhere es e he⟩⟩

theorem parenthesized_follows (ts : Tokens) : Follows condition ts (parenthesized ts) := by
  refine .mono ((expect_follows .openParen ts).bind fun _ us _ => (operation_follows (Nat.zero_le _) us).bind fun _ vs _ =>
    (expect_follows .closeParen vs).last) ?_
  rintro _ ⟨_, _, ⟨sOpen, rfl⟩, ⟨us, _, ⟨e, he⟩, ⟨sClose, rfl⟩, rfl⟩, rfl⟩
  exact ⟨_, .intro he⟩

theorem assignment_follows (target : Variable) (ts : Tokens) : Follows assigned ts (assignment target ts) := by
  unfold assignment
  split
  · refine .mono (.cons ((operation_follows (Nat.zero_le _) _).bind fun _ us _ =>
      (expect_follows .closeSquare us).bind fun _ vs _ => (expect_follows .assign vs).bind fun _ ws _ =>
        (operation_follows (Nat.zero_le _) ws).bind fun _ xs _ => (expect_follows .semicolon xs).last)) ?_
    rintro _ ⟨_, _, ⟨sOpen, rfl⟩, ⟨is, _, ⟨i, hi⟩, ⟨_, _, ⟨sClose, rfl⟩, ⟨_, _, ⟨sAssign, rfl⟩, ⟨es, _, ⟨e, he⟩,
      ⟨sEnd, rfl⟩, rfl⟩, rfl⟩, rfl⟩, rfl⟩, rfl⟩
    exact fun _ _ => ⟨_, .store hi he⟩
  · refine .mono ((expect_follows .assign _).bind fun _ us _ => (operation_follows (Nat.zero_le _) us).bind fun _ vs _ =>
      (expect_follows .semicolon vs).last) ?_
    rintro _ ⟨_, _, ⟨sAssign, rfl⟩, ⟨es, _, ⟨e, he⟩, ⟨sEnd, rfl⟩, rfl⟩, rfl⟩
    exact fun _ _ => ⟨_, .assign he⟩

mutual

theorem statement_follows (ts : Tokens) : Follows (of Statement exists_statement) ts (statement ts) := by
  rw [statement.eq_def]
  split
  · refine .mono (.cons ((statements_follows .closeCurly _).bind fun _ us _ =>
      (expect_follows .closeCurly us).last)) ?_
    rintro _ ⟨_, _, ⟨sOpen, rfl⟩, ⟨us, _, ⟨body, hbody⟩, ⟨sClose, rfl⟩, rfl⟩, rfl⟩
    exact ⟨_, .block hbody⟩
  · refine .mono (.cons ((parenthesized_follows _).bind fun _ us _ => (statement_follows us).bind fun _ vs _ =>
      (expect_follows (.keyword .elseKw) vs).bind fun _ ws _ => (statement_follows ws).last)) ?_
    rintro _ ⟨_, _, ⟨s, rfl⟩, ⟨cs, _, ⟨c, hc⟩, ⟨ys, _, ⟨yes, hyes⟩, ⟨_, ns, ⟨sElse, rfl⟩, ⟨no, hno⟩, rfl⟩, rfl⟩,
      rfl⟩, rfl⟩
    exact ⟨_, by simpa using @Statement.ite s sElse _ _ _ _ _ _ hc hyes hno⟩
  · refine .mono (.cons ((parenthesized_follows _).bind fun _ us _ => (statement_follows us).last)) ?_
    rintro _ ⟨_, _, ⟨s, rfl⟩, ⟨cs, bs, ⟨c, hc⟩, ⟨body, hbody⟩, rfl⟩, rfl⟩
    exact ⟨_, by simpa using @Statement.loop s _ _ _ _ hc hbody⟩
  · refine .mono (.cons ((parenthesized_follows _).bind fun _ us _ => (expect_follows .semicolon us).last)) ?_
    rintro _ ⟨_, _, ⟨s, rfl⟩, ⟨es, _, ⟨e, he⟩, ⟨sEnd, rfl⟩, rfl⟩, rfl⟩
    exact ⟨_, .print he⟩
  · refine .mono (.cons ((assignment_follows _ _).last)) ?_
    rintro _ ⟨_, us, ⟨s, rfl⟩, hus, rfl⟩
    exact hus _ s
  · exact refuse_follows _ id _
termination_by (ts.length, 0)
decreasing_by all_goals subst_vars; decreasing_tactic

theorem statements_follows (stop : Token) (ts : Tokens) : Follows (star Statement) ts (statements stop ts) := by
  rw [statements.eq_def]
  split
  · exact ⟨[], ⟨[], .nil⟩, rfl⟩
  · split
    · exact ⟨[], ⟨[], .nil⟩, rfl⟩
    · refine .mono ((statement_follows _).bind fun _ us _ => (statements_follows stop us).last) fun _ => has_star
termination_by (ts.length, 1)
decreasing_by all_goals subst_vars; decreasing_tactic

end

/-! ## Classes -/

theorem exists_methodDecl : ∃ ts m, MethodDecl ts m := by
  obtain ⟨bs, hbs⟩ := (fixed [.closeParen, .openCurly]).nonempty
  obtain ⟨zs, hzs⟩ := (fixed [.semicolon, .closeCurly]).nonempty
  obtain ⟨es, e, he⟩ := exists_exp (Nat.zero_le 6)
  exact ⟨_, _, @MethodDecl.intro .nowhere .nowhere .nowhere _ _ _ _ _ _ _ _ _ _ _ _ _ _ (@TypeName.int .nowhere)
    (@Id.intro "" .nowhere) .nil hbs .nil .nil he hzs⟩

theorem method_follows (ts : Tokens) : Follows (of MethodDecl exists_methodDecl) ts (method ts) := by
  refine .mono ((expect_follows _ ts).bind fun _ ts₁ _ => (type_follows ts₁).bind fun _ ts₂ _ =>
    (identifier_follows ts₂).bind fun _ ts₃ _ => (expect_follows _ ts₃).bind fun _ ts₄ _ =>
      (formals_follows ts₄).bind fun _ ts₅ _ => (expectAll_follows _ ts₅).bind fun _ ts₆ _ =>
        variableDeclarations_follows ((statements_follows _ _).bind fun _ ts₈ _ => (expect_follows _ ts₈).bind
          fun _ ts₉ _ => (operation_follows (Nat.zero_le _) ts₉).bind fun _ ts₁₀ _ =>
            (expectAll_follows _ ts₁₀).last)) ?_
  rintro _ ⟨_, _, ⟨s, rfl⟩, ⟨us, _, ⟨returns, hreturns⟩, ⟨ns, _, ⟨name, hname⟩, ⟨_, _, ⟨sOpen, rfl⟩, ⟨fs, _,
    ⟨formals, hformals⟩, ⟨bs, _, hbs, ⟨ls, _, ⟨locals, hlocals⟩, ⟨ss, _, ⟨body, hbody⟩, ⟨_, _, ⟨sReturn, rfl⟩, ⟨es,
    zs, ⟨result, hresult⟩, hzs, rfl⟩, rfl⟩, rfl⟩, rfl⟩, rfl⟩, rfl⟩, rfl⟩, rfl⟩, rfl⟩, rfl⟩
  have hmethod := @MethodDecl.intro s sOpen sReturn _ _ _ _ _ _ _ _ _ _ _ _ _ _ hreturns hname hformals hbs hlocals
    hbody hresult hzs
  exact ⟨_, by simpa using hmethod⟩

theorem methods_follows (ts : Tokens) : Follows (star MethodDecl) ts (methods ts) := by
  rw [methods.eq_def]
  split
  · refine .mono ((method_follows _).bind fun _ us _ => (methods_follows us).last) fun _ => has_star
  · exact ⟨[], ⟨[], .nil⟩, rfl⟩
termination_by ts.length
decreasing_by all_goals subst_vars; assumption

def parentClause : Language := of Extends ⟨_, _, .root⟩

theorem parent_follows (ts : Tokens) : Follows parentClause ts (parent ts) := by
  unfold parent
  split
  · refine .mono (.cons ((identifier_follows _).last)) ?_
    rintro _ ⟨_, us, ⟨s, rfl⟩, ⟨c, hc⟩, rfl⟩
    exact ⟨_, .parent hc⟩
  · exact ⟨[], ⟨_, .root⟩, rfl⟩

theorem exists_class : ∃ ts c, Class ts c :=
  ⟨_, _, @Class.intro .nowhere .nowhere .nowhere _ _ _ _ _ _ _ _ (@Id.intro "" .nowhere) .root .nil .nil⟩

theorem classDeclaration_follows (ts : Tokens) : Follows (of Class exists_class) ts (classDeclaration ts) := by
  unfold classDeclaration
  split
  · refine .mono (.cons ((identifier_follows _).bind fun _ ts₁ _ => (parent_follows ts₁).bind fun _ ts₂ _ =>
      (expect_follows _ ts₂).bind fun _ ts₃ _ => variableDeclarations_follows
        ((methods_follows _).bind fun _ ts₅ _ => (expect_follows _ ts₅).last))) ?_
    rintro _ ⟨_, _, ⟨s, rfl⟩, ⟨ns, _, ⟨name, hname⟩, ⟨ps, _, ⟨parent, hparent⟩, ⟨_, _, ⟨sOpen, rfl⟩, ⟨fs, _, ⟨fields,
      hfields⟩, ⟨ms, _, ⟨methods, hmethods⟩, ⟨sClose, rfl⟩, rfl⟩, rfl⟩, rfl⟩, rfl⟩, rfl⟩, rfl⟩
    have hclass := @Class.intro s sOpen sClose _ _ _ _ _ _ _ _ hname hparent hfields hmethods
    exact ⟨_, by simpa using hclass⟩
  · exact refuse_follows _ id _

theorem exists_main : ∃ ts c, Main ts c := by
  obtain ⟨hs, hhs⟩ := (fixed [.openCurly, .keyword .publicKw, .keyword .staticKw, .keyword .voidKw, .keyword .mainKw,
    .openParen, .keyword .stringKw, .openSquare, .closeSquare]).nonempty
  obtain ⟨bs, hbs⟩ := (fixed [.closeParen, .openCurly]).nonempty
  obtain ⟨zs, hzs⟩ := (fixed [.closeCurly, .closeCurly]).nonempty
  obtain ⟨ss, s, hs⟩ := exists_statement
  exact ⟨_, _, @Main.intro .nowhere _ _ _ _ _ _ _ _ _ (@Id.intro "" .nowhere) hhs (@Id.intro "" .nowhere) hbs hs hzs⟩

theorem mainClass_follows (ts : Tokens) : Follows (of Main exists_main) ts (mainClass ts) := by
  refine .mono ((expect_follows _ ts).bind fun _ ts₁ _ => (identifier_follows ts₁).bind fun _ ts₂ _ =>
    (expectAll_follows _ ts₂).bind fun _ ts₃ _ => (identifier_follows ts₃).bind fun _ ts₄ _ =>
      (expectAll_follows _ ts₄).bind fun _ ts₅ _ => (statement_follows ts₅).bind fun _ ts₆ _ =>
        (expectAll_follows _ ts₆).last) ?_
  rintro _ ⟨_, _, ⟨s, rfl⟩, ⟨ns, _, ⟨name, hname⟩, ⟨hs, _, hhs, ⟨as, _, ⟨argument, hargument⟩, ⟨bs, _, hbs, ⟨ss, zs,
    ⟨body, hbody⟩, hzs, rfl⟩, rfl⟩, rfl⟩, rfl⟩, rfl⟩, rfl⟩
  have hmain := @Main.intro s _ _ _ _ _ _ _ _ _ hname hhs hargument hbs hbody hzs
  exact ⟨_, by simpa using hmain⟩

/-! ## Programs -/

/-- The classes go on to the end of the tokens, so that there is only a refusal to speak of. -/
theorem classDeclarations_inTime {ts : Tokens} {e : Refusal} (h : classDeclarations ts = .error e) :
    InTime (star Class) ts e := by
  rw [classDeclarations.eq_def] at h
  split at h
  · cases h
  · rename_i t ts
    have hfirst := classDeclaration_follows (t :: ts)
    rcases bind_eq_error.1 h with hrefused | ⟨⟨c, us, hlt⟩, hread, h⟩
    · rw [hrefused] at hfirst
      exact InTime.mono (InTime.seq hfirst) fun _ => has_star
    · rw [hread] at hfirst
      obtain ⟨cs, hcs, hts⟩ := hfirst
      rcases bind_eq_error.1 h with hrest | ⟨_, -, h⟩
      · rw [hts]
        exact InTime.mono (.behind hcs (classDeclarations_inTime hrest)) fun _ => has_star
      · cases h
termination_by ts.length
decreasing_by all_goals subst_vars; exact hlt

/-- **The tokens begin a program**: more can follow them that make it one. -/
def Viable (ts : Tokens) : Prop := ∃ more p, Goal (ts ++ more) p

/-- **The parser refuses in time.** -/
theorem program_inTime {ts : Tokens} {e : Refusal} (h : Parse.program ts = .error e) :
    ∃ us, Viable us ∧ ts = us ++ e.rest ∧ (e.cause.AtEnd ↔ e.rest = []) := by
  suffices hrow : InTime ((of Main exists_main).seq (star Class)) ts e by
    obtain ⟨us, ⟨more, _, _, ⟨main, hmain⟩, ⟨classes, hclasses⟩, hus⟩, hts⟩ := hrow
    refine ⟨us, ⟨more, ⟨main, classes⟩, ?_⟩, hts⟩
    rw [hus]
    exact .intro hmain hclasses
  have hmain := mainClass_follows ts
  rcases bind_eq_error.1 h with hrefused | ⟨⟨c, us, hlt⟩, hread, h⟩
  · rw [hrefused] at hmain
    exact InTime.seq hmain
  · rw [hread] at hmain
    obtain ⟨ms, hms, hts⟩ := hmain
    rcases bind_eq_error.1 h with hrest | ⟨_, -, h⟩
    · rw [hts]
      exact .behind hms (classDeclarations_inTime hrest)
    · cases h

end Grammar

open Grammar

theorem Refusal.span_located (eof : Span) (e : Refusal) :
    (e.rest = [] ∧ (e.located eof).span = eof) ∨ ∃ t ts, e.rest = t :: ts ∧ (e.located eof).span = t.span := by
  unfold Refusal.located
  cases e.rest with
  | nil => exact .inl ⟨rfl, rfl⟩
  | cons t ts => exact .inr ⟨t, ts, rfl, rfl⟩

namespace Program

variable {eof : Span} {ts : Tokens} {e : Located SyntaxError}

theorem exists_refusal_of_parse_eq_error (h : parse eof ts = .error e) :
    ∃ refusal, Parse.program ts = .error refusal ∧ refusal.located eof = e := mapError_eq_error.1 h

/-- **A text is refused at one of its tokens or at its end.** -/
theorem span_of_parse_eq_error (h : parse eof ts = .error e) : e.span = eof ∨ ∃ t ∈ ts, e.span = t.span := by
  obtain ⟨refusal, hrefusal, rfl⟩ := exists_refusal_of_parse_eq_error h
  obtain ⟨us, -, hts, -⟩ := program_inTime hrefusal
  rcases refusal.span_located eof with ⟨-, hspan⟩ | ⟨t, rest, hrest, hspan⟩
  · exact .inl hspan
  · exact .inr ⟨t, by rw [hts, hrest]; exact List.mem_append_right us List.mem_cons_self, hspan⟩

/-- **No error is reported late.**  Whatever the tokens, if they are refused, then either the error says that they end too
early, it stands at the end of the text, and all of the tokens begin a program; or it says something else, it stands at one
of the tokens, and the tokens before that one begin a program. -/
theorem errors_in_time (eof : Span) (ts : Tokens) (e : Located SyntaxError) (h : parse eof ts = .error e) :
    (((∃ t, e.val = .missingToken t) ∨ e.val = .unexpectedEnd) ∧ e.span = eof ∧ Viable ts) ∨
      ((∀ t, e.val ≠ .missingToken t) ∧ e.val ≠ .unexpectedEnd ∧
        ∃ before t after, ts = before ++ t :: after ∧ e.span = t.span ∧ Viable before) := by
  obtain ⟨refusal, hrefusal, rfl⟩ := exists_refusal_of_parse_eq_error h
  obtain ⟨us, hus, hts, hend⟩ := program_inTime hrefusal
  rcases refusal.span_located eof with ⟨hrest, hspan⟩ | ⟨t, rest, hrest, hspan⟩
  · rw [hrest, List.append_nil] at hts
    exact .inl ⟨SyntaxError.atEnd_iff.1 (hend.2 hrest), hspan, hts ▸ hus⟩
  · have hnot : ¬ refusal.cause.AtEnd := fun h => by simp [hrest] at hend; exact hend h
    obtain ⟨hmissing, hunexpected⟩ := not_or.1 (mt SyntaxError.atEnd_iff.2 hnot)
    exact .inr ⟨not_exists.1 hmissing, hunexpected, us, t, rest, by rw [hts, hrest], hspan, hus⟩

end Program

namespace Sample

/-- The tokens of a text that ends in the midst of a method, behind what may be a type and a name. -/
def cutShort : Tokens :=
  [.keyword .classKw, .ident "Main", .openCurly, .keyword .publicKw, .keyword .staticKw, .keyword .voidKw, .keyword .mainKw,
    .openParen, .keyword .stringKw, .openSquare, .closeSquare, .ident "args", .closeParen, .openCurly, .keyword .printlnKw,
    .openParen, .literal 0, .closeParen, .semicolon, .closeCurly, .closeCurly, .keyword .classKw, .ident "A", .openCurly,
    .keyword .publicKw, .keyword .intKw, .ident "m", .openParen, .closeParen, .openCurly, .ident "B", .ident "y"].mapIdx
      fun i t => ⟨t, ⟨⟨1, i + 1⟩, ⟨1, i + 2⟩⟩⟩

end Sample

/-- The declaration that lacks its semicolon is taken back, and an assignment cannot go on with the second name. -/
theorem Program.errors_in_time_on_cutShort : ∃ e, parse ⟨⟨2, 1⟩, ⟨2, 1⟩⟩ Sample.cutShort = .error e ∧
    e = ⟨.unexpectedToken .assign (.ident "y"), ⟨⟨1, 32⟩, ⟨1, 33⟩⟩⟩ ∧
    ∃ before t after, Sample.cutShort = before ++ t :: after ∧ e.span = t.span ∧ Viable before := by
  have herror : parse ⟨⟨2, 1⟩, ⟨2, 1⟩⟩ Sample.cutShort =
      .error ⟨.unexpectedToken .assign (.ident "y"), ⟨⟨1, 32⟩, ⟨1, 33⟩⟩⟩ := by cbv
  refine ⟨_, herror, rfl, ?_⟩
  rcases errors_in_time _ _ _ herror with ⟨hcause, -⟩ | ⟨-, -, h⟩
  · rcases hcause with ⟨_, hcause⟩ | hcause <;> cases hcause
  · exact h

end MiniJava
