import MiniJava.Proofs.Grammar.Programs
import MiniJava.Proofs.Tree.Parts
/-!
# Spelling trees

How a tree is spelled out again.  An expression stands in parentheses where its layer is too loose for its place, and
besides wherever `extra` asks for them: with `extra` never true these are the fewest parentheses that will do, with
`extra` always true all that there can be, short of doubling them.  Every spelling of a tree is in the grammar and is
read as that tree (`Program.parse_eq_ok_iff_goal`).
-/
namespace MiniJava

open Parse

/-- A list with commas between its items. -/
def commaList : List (List Token) → List Token
  | [] => []
  | ts :: tss => ts ++ tss.flatMap (.comma :: ·)

def Ty.tokens : Ty → List Token
  | int => [.keyword .intKw]
  | boolean => [.keyword .booleanKw]
  | intArray => [.keyword .intKw, .openSquare, .closeSquare]
  | object c => [.ident c]

def Declaration.tokens (d : Declaration) : List Token := d.ty.val.tokens ++ [.ident d.name.val]

def Op.token : Op → Token
  | add => .plus
  | sub => .minus
  | mul => .times
  | less => .less
  | and => .and

/-! ## Expressions -/

namespace Expr

/-- The layer of the grammar that an expression is of without parentheses. -/
def layer : Expr → Nat
  | binary _ _ op _ => level op
  | not _ _ => 4
  | index _ _ _ | length _ _ | call _ _ _ _ _ => 5
  | literal _ _ | bool _ _ | self _ | read _ _ | newArray _ _ | newObject _ _ => 6

def enclose (b : Bool) (ts : List Token) : List Token := if b then .openParen :: (ts ++ [.closeParen]) else ts

variable (extra : Expr → Bool)

/-- The tokens `ts` of `e` where an expression of layer `k` is expected. -/
def placed (k : Nat) (e : Expr) (ts : List Token) : List Token := enclose (extra e || decide (e.layer < k)) ts

mutual

/-- The tokens of an expression that is not itself in parentheses. -/
def bare : Expr → List Token
  | literal _ n => [.literal n]
  | bool _ b => [.keyword (if b then .trueKw else .falseKw)]
  | self _ => [.keyword .thisKw]
  | read _ x => [.ident x.name.val]
  | binary _ l op r => placed extra (level op) l (bare l) ++ op.token :: placed extra (level op + 1) r (bare r)
  | not _ e => .not :: placed extra 4 e (bare e)
  | index _ a i => placed extra 5 a (bare a) ++ .openSquare :: (placed extra 0 i (bare i) ++ [.closeSquare])
  | length _ a => placed extra 5 a (bare a) ++ [.period, .keyword .lengthKw]
  | newArray _ n => .keyword .newKw :: .keyword .intKw :: .openSquare :: (placed extra 0 n (bare n) ++ [.closeSquare])
  | newObject _ c => [.keyword .newKw, .ident c.val, .openParen, .closeParen]
  | call _ r f es _ => placed extra 5 r (bare r) ++ .period :: .ident f.val :: .openParen ::
      (commaList (bareAll es) ++ [.closeParen])

def bareAll : List Expr → List (List Token)
  | [] => []
  | e :: es => placed extra 0 e (bare e) :: bareAll es

end

/-- The tokens of an expression. -/
def tokens (e : Expr) : List Token := placed extra 0 e (bare extra e)

end Expr

/-! ## Statements and classes -/

namespace Stmt

variable (extra : Expr → Bool)

mutual

def tokens : Stmt → List Token
  | block body => .openCurly :: (tokensAll body ++ [.closeCurly])
  | ite c yes no => .keyword .ifKw :: .openParen :: (c.tokens extra ++ .closeParen :: (tokens yes
      ++ .keyword .elseKw :: tokens no))
  | loop c body => .keyword .whileKw :: .openParen :: (c.tokens extra ++ .closeParen :: tokens body)
  | print e => .keyword .printlnKw :: .openParen :: (e.tokens extra ++ [.closeParen, .semicolon])
  | assign x e => .ident x.name.val :: .assign :: (e.tokens extra ++ [.semicolon])
  | store x i e => .ident x.name.val :: .openSquare :: (i.tokens extra ++ .closeSquare :: .assign :: (e.tokens extra
      ++ [.semicolon]))

def tokensAll : List Stmt → List Token
  | [] => []
  | s :: ss => tokens s ++ tokensAll ss

end

end Stmt

def Declaration.tokensAll (ds : List Declaration) : List Token := ds.flatMap fun d => d.tokens ++ [.semicolon]

def Method.tokens (extra : Expr → Bool) (m : Method) : List Token :=
  .keyword .publicKw :: (m.returns.val.tokens ++ .ident m.name.val :: .openParen ::
    (commaList (m.formals.map Declaration.tokens) ++ .closeParen :: .openCurly ::
      (Declaration.tokensAll m.locals ++ (Stmt.tokensAll extra m.body ++
        .keyword .returnKw :: (m.result.tokens extra ++ [.semicolon, .closeCurly])))))

def ClassDecl.parentTokens (c : ClassDecl) : List Token :=
  match c.parent with
  | none => []
  | some parent => [.keyword .extendsKw, .ident parent.val]

def ClassDecl.tokens (extra : Expr → Bool) (c : ClassDecl) : List Token :=
  .keyword .classKw :: .ident c.name.val :: (c.parentTokens ++ .openCurly ::
    (Declaration.tokensAll c.fields ++ (c.methods.flatMap (Method.tokens extra) ++ [.closeCurly])))

def MainClass.tokens (extra : Expr → Bool) (c : MainClass) : List Token :=
  .keyword .classKw :: .ident c.name.val ::
    ([.openCurly, .keyword .publicKw, .keyword .staticKw, .keyword .voidKw, .keyword .mainKw, .openParen,
      .keyword .stringKw, .openSquare, .closeSquare] ++ .ident c.argument.val ::
        ([.closeParen, .openCurly] ++ (c.body.tokens extra ++ [.closeCurly, .closeCurly])))

/-- The tokens of a program. -/
def Program.tokens (extra : Expr → Bool) (p : Program) : List Token :=
  p.main.tokens extra ++ p.classes.flatMap (ClassDecl.tokens extra)

namespace Grammar

/-! ## Every spelling is in the grammar -/

theorem Exp.loosen {j k : Nat} {ts : Tokens} {e : Expr} (h : Exp k ts e) (hjk : j ≤ k) : Exp j ts e := by
  induction hjk with
  | refl => exact h
  | step _ ih => exact ih (.looser h)

theorem operator_token (op : Op) : Operator op.token op (level op) := by cases op <;> constructor

theorem level_lt (op : Op) : level op < levels := (operator_token op).lt

variable {extra : Expr → Bool}

/-- An expression may stand where a tighter one is expected, for it is put in parentheses there. -/
theorem exp_of_placed {k : Nat} {e : Expr} {ts : Tokens} {words : List Token} (hk : k ≤ 6)
    (hwords : ∀ {us : Tokens}, us.map (·.val) = words → ∃ e', Exp e.layer us e' ∧ e'.unplaced = e.unmark.unplaced)
    (h : ts.map (·.val) = e.placed extra k words) : ∃ e', Exp k ts e' ∧ e'.unplaced = e.unmark.unplaced := by
  rw [Expr.placed, Expr.enclose] at h
  split at h
  · simp only [List.map_eq_append_iff, List.map_eq_cons_iff, List.map_eq_nil_iff] at h
    obtain ⟨⟨_, sOpen⟩, _, rfl, rfl, us, _, rfl, hus, ⟨_, sClose⟩, _, rfl, rfl, rfl⟩ := h
    obtain ⟨e', he, hsame⟩ := hwords hus
    have hparen := @Exp.paren sOpen sClose us e' (he.loosen (Nat.zero_le _))
    exact ⟨e', hparen.loosen hk, hsame⟩
  · rename_i hplain
    obtain ⟨e', he, hsame⟩ := hwords h
    have hle : k ≤ e.layer := by
      by_contra hlt
      simp [Nat.lt_of_not_le hlt] at hplain
    exact ⟨e', he.loosen hle, hsame⟩

mutual

theorem exp_of_bare : ∀ {e : Expr} {ts : Tokens}, ts.map (·.val) = e.bare extra →
    ∃ e', Exp e.layer ts e' ∧ e'.unplaced = e.unmark.unplaced
  | .literal _ n, ts, h => by
    simp only [Expr.bare, List.map_eq_singleton_iff] at h
    obtain ⟨⟨_, s⟩, rfl, rfl⟩ := h
    exact ⟨_, .literal, rfl⟩
  | .bool _ b, ts, h => by
    simp only [Expr.bare, List.map_eq_singleton_iff] at h
    obtain ⟨⟨_, s⟩, rfl, rfl⟩ := h
    cases b
    · exact ⟨_, .false, rfl⟩
    · exact ⟨_, .true, rfl⟩
  | .self _, ts, h => by
    simp only [Expr.bare, List.map_eq_singleton_iff] at h
    obtain ⟨⟨_, s⟩, rfl, rfl⟩ := h
    exact ⟨_, .self, rfl⟩
  | .read _ x, ts, h => by
    simp only [Expr.bare, List.map_eq_singleton_iff] at h
    obtain ⟨⟨_, s⟩, rfl, rfl⟩ := h
    exact ⟨_, .read, rfl⟩
  | .binary _ l op r, ts, h => by
    simp only [Expr.bare, List.map_eq_append_iff, List.map_eq_cons_iff] at h
    obtain ⟨ls, _, rfl, hl, ⟨_, s⟩, rs, rfl, rfl, hr⟩ := h
    have hlevel : level op < 4 := level_lt op
    obtain ⟨l', hl, hsameLeft⟩ := exp_of_placed (Nat.le_of_lt (Nat.lt_trans hlevel (by decide))) exp_of_bare hl
    obtain ⟨r', hr, hsameRight⟩ := exp_of_placed (Nat.le_trans hlevel (by decide)) exp_of_bare hr
    refine ⟨_, .binary (operator_token op) hl hr, ?_⟩
    simp only [Expr.unplaced, Expr.unmark, hsameLeft, hsameRight]
    rfl
  | .not _ e, ts, h => by
    simp only [Expr.bare, List.map_eq_cons_iff] at h
    obtain ⟨⟨_, s⟩, us, rfl, rfl, h⟩ := h
    obtain ⟨e', he, hsame⟩ := exp_of_placed (by decide) exp_of_bare h
    refine ⟨_, .not he, ?_⟩
    simp only [Expr.unplaced, Expr.unmark, hsame]
    rfl
  | .index _ a i, ts, h => by
    simp only [Expr.bare, List.map_eq_append_iff, List.map_eq_cons_iff, List.map_eq_nil_iff] at h
    obtain ⟨as, _, rfl, ha, ⟨_, sOpen⟩, _, rfl, rfl, is, _, rfl, hi, ⟨_, sClose⟩, _, rfl, rfl, rfl⟩ := h
    obtain ⟨a', ha, hsameArray⟩ := exp_of_placed (by decide) exp_of_bare ha
    obtain ⟨i', hi, hsameIndex⟩ := exp_of_placed (by decide) exp_of_bare hi
    have hindex := @Exp.index sOpen sClose as is a' i' ha hi
    rw [List.append_assoc] at hindex
    refine ⟨_, hindex, ?_⟩
    simp only [Expr.unplaced, Expr.unmark, hsameArray, hsameIndex]
    rfl
  | .length _ a, ts, h => by
    simp only [Expr.bare, List.map_eq_append_iff, List.map_eq_cons_iff, List.map_eq_nil_iff] at h
    obtain ⟨as, _, rfl, ha, ⟨_, s⟩, _, rfl, rfl, ⟨_, sWord⟩, _, rfl, rfl, rfl⟩ := h
    obtain ⟨a', ha, hsame⟩ := exp_of_placed (by decide) exp_of_bare ha
    refine ⟨_, .length ha, ?_⟩
    simp only [Expr.unplaced, Expr.unmark, hsame]
    rfl
  | .newArray _ n, ts, h => by
    simp only [Expr.bare, List.map_eq_append_iff, List.map_eq_cons_iff, List.map_eq_nil_iff] at h
    obtain ⟨⟨_, s⟩, _, rfl, rfl, ⟨_, sInt⟩, _, rfl, rfl, ⟨_, sOpen⟩, _, rfl, rfl, ns, _, rfl, hn, ⟨_, sClose⟩, _, rfl,
      rfl, rfl⟩ := h
    obtain ⟨n', hn, hsame⟩ := exp_of_placed (by decide) exp_of_bare hn
    refine ⟨_, @Exp.newArray s sInt sOpen sClose ns n' hn, ?_⟩
    simp only [Expr.unplaced, Expr.unmark, hsame]
    rfl
  | .newObject _ c, ts, h => by
    simp only [Expr.bare, List.map_eq_cons_iff, List.map_eq_nil_iff] at h
    obtain ⟨⟨_, s⟩, _, rfl, rfl, ⟨_, sName⟩, _, rfl, rfl, ⟨_, sOpen⟩, _, rfl, rfl, ⟨_, sClose⟩, _, rfl, rfl, rfl⟩ := h
    exact ⟨_, @Exp.newObject s sOpen sClose _ _ (@Id.intro c.val sName), rfl⟩
  | .call _ r f es _, ts, h => by
    simp only [Expr.bare, List.map_eq_append_iff, List.map_eq_cons_iff, List.map_eq_nil_iff] at h
    obtain ⟨rs, _, rfl, hr, ⟨_, s⟩, _, rfl, rfl, ⟨_, sName⟩, _, rfl, rfl, ⟨_, sOpen⟩, _, rfl, rfl, as, _, rfl, has,
      ⟨_, sClose⟩, _, rfl, rfl, rfl⟩ := h
    obtain ⟨r', hr, hsame⟩ := exp_of_placed (by decide) exp_of_bare hr
    obtain ⟨es', hes, hsames⟩ := separated_of_bareAll has
    have hcall := @Exp.call s sOpen sClose rs _ as r' _ es' hr (@Id.intro f.val sName) hes
    rw [List.append_assoc, List.append_assoc] at hcall
    refine ⟨_, hcall, ?_⟩
    simp only [Expr.unplaced, Expr.unmark, hsame, hsames]
    rfl

theorem separated_of_bareAll : ∀ {es : List Expr} {ts : Tokens}, ts.map (·.val) = commaList (Expr.bareAll extra es) →
    ∃ es', Separated (Exp 0) ts es' ∧ Expr.unplacedAll es' = Expr.unplacedAll (Expr.unmarkAll es)
  | [], ts, h => by
    simp only [Expr.bareAll, commaList, List.map_eq_nil_iff] at h
    exact ⟨[], h ▸ .nil, rfl⟩
  | e :: es, ts, h => by
    simp only [Expr.bareAll, commaList, List.map_eq_append_iff] at h
    obtain ⟨us, vs, rfl, he, hes⟩ := h
    obtain ⟨e', he, hsame⟩ := exp_of_placed (by decide) exp_of_bare he
    obtain ⟨es', hes, hsames⟩ := commas_of_bareAll hes
    exact ⟨e' :: es', .cons he hes, by simp only [Expr.unplacedAll, Expr.unmarkAll, hsame, hsames]⟩

theorem commas_of_bareAll : ∀ {es : List Expr} {ts : Tokens},
    ts.map (·.val) = (Expr.bareAll extra es).flatMap (.comma :: ·) →
    ∃ es', Commas (Exp 0) ts es' ∧ Expr.unplacedAll es' = Expr.unplacedAll (Expr.unmarkAll es)
  | [], ts, h => by
    simp only [Expr.bareAll, List.flatMap_nil, List.map_eq_nil_iff] at h
    exact ⟨[], h ▸ .nil, rfl⟩
  | e :: es, ts, h => by
    simp only [Expr.bareAll, List.flatMap_cons, List.map_eq_append_iff, List.map_eq_cons_iff] at h
    obtain ⟨_, vs, rfl, ⟨⟨_, s⟩, us, rfl, rfl, he⟩, hes⟩ := h
    obtain ⟨e', he, hsame⟩ := exp_of_placed (by decide) exp_of_bare he
    obtain ⟨es', hes, hsames⟩ := commas_of_bareAll hes
    exact ⟨e' :: es', .cons he hes, by simp only [Expr.unplacedAll, Expr.unmarkAll, hsame, hsames]⟩

end

/-- The fewest parentheses keep the sum together under the product, and leave out those around the product. -/
example : Expr.tokens (fun _ => false) (.binary ⟨.nowhere, none⟩ (.literal ⟨.nowhere, none⟩ 2) .mul
    (.binary ⟨.nowhere, none⟩ (.literal ⟨.nowhere, none⟩ 3) .add (.literal ⟨.nowhere, none⟩ 4))) =
      [.literal 2, .times, .openParen, .literal 3, .plus, .literal 4, .closeParen] := rfl

theorem exp_of_tokens {e : Expr} {ts : Tokens} (h : ts.map (·.val) = e.tokens extra) :
    ∃ e', Exp 0 ts e' ∧ e'.unplaced = e.unmark.unplaced := exp_of_placed (Nat.zero_le 6) exp_of_bare h

mutual

theorem statement_of_tokens : ∀ {s : Stmt} {ts : Tokens}, ts.map (·.val) = s.tokens extra →
    ∃ s', Statement ts s' ∧ s'.unplaced = s.unmark.unplaced
  | .block body, ts, h => by
    simp only [Stmt.tokens, List.map_eq_append_iff, List.map_eq_cons_iff, List.map_eq_nil_iff] at h
    obtain ⟨⟨_, sOpen⟩, _, rfl, rfl, us, _, rfl, hb, ⟨_, sClose⟩, _, rfl, rfl, rfl⟩ := h
    obtain ⟨body', hb, hsame⟩ := statements_of_tokens hb
    exact ⟨_, @Statement.block sOpen sClose us body' hb, by simp only [Stmt.unplaced, Stmt.unmark, hsame]⟩
  | .ite c yes no, ts, h => by
    simp only [Stmt.tokens, List.map_eq_append_iff, List.map_eq_cons_iff] at h
    obtain ⟨⟨_, s⟩, _, rfl, rfl, ⟨_, sOpen⟩, _, rfl, rfl, cs, _, rfl, hc, ⟨_, sClose⟩, _, rfl, rfl, ys, _, rfl, hy,
      ⟨_, sElse⟩, ns, rfl, rfl, hn⟩ := h
    obtain ⟨c', hc, hsame⟩ := exp_of_tokens hc
    obtain ⟨yes', hy, hsameYes⟩ := statement_of_tokens hy
    obtain ⟨no', hn, hsameNo⟩ := statement_of_tokens hn
    have hite := @Statement.ite s sElse _ ys ns c' yes' no' (@Condition.intro sOpen sClose cs c' hc) hy hn
    simp only [List.append_assoc, List.cons_append, List.nil_append] at hite
    exact ⟨_, hite, by simp only [Stmt.unplaced, Stmt.unmark, hsame, hsameYes, hsameNo]⟩
  | .loop c body, ts, h => by
    simp only [Stmt.tokens, List.map_eq_append_iff, List.map_eq_cons_iff] at h
    obtain ⟨⟨_, s⟩, _, rfl, rfl, ⟨_, sOpen⟩, _, rfl, rfl, cs, _, rfl, hc, ⟨_, sClose⟩, bs, rfl, rfl, hb⟩ := h
    obtain ⟨c', hc, hsame⟩ := exp_of_tokens hc
    obtain ⟨body', hb, hsameBody⟩ := statement_of_tokens hb
    have hloop := @Statement.loop s _ bs c' body' (@Condition.intro sOpen sClose cs c' hc) hb
    simp only [List.append_assoc, List.cons_append, List.nil_append] at hloop
    exact ⟨_, hloop, by simp only [Stmt.unplaced, Stmt.unmark, hsame, hsameBody]⟩
  | .print e, ts, h => by
    simp only [Stmt.tokens, List.map_eq_append_iff, List.map_eq_cons_iff, List.map_eq_nil_iff] at h
    obtain ⟨⟨_, s⟩, _, rfl, rfl, ⟨_, sOpen⟩, _, rfl, rfl, es, _, rfl, he, ⟨_, sClose⟩, _, rfl, rfl, ⟨_, sEnd⟩, _, rfl,
      rfl, rfl⟩ := h
    obtain ⟨e', he, hsame⟩ := exp_of_tokens he
    have hprint := @Statement.print s sEnd _ e' (@Condition.intro sOpen sClose es e' he)
    simp only [List.append_assoc, List.cons_append, List.nil_append] at hprint
    exact ⟨_, hprint, by simp only [Stmt.unplaced, Stmt.unmark, hsame]⟩
  | .assign x e, ts, h => by
    simp only [Stmt.tokens, List.map_eq_append_iff, List.map_eq_cons_iff, List.map_eq_nil_iff] at h
    obtain ⟨⟨_, s⟩, _, rfl, rfl, ⟨_, sAssign⟩, _, rfl, rfl, es, _, rfl, he, ⟨_, sEnd⟩, _, rfl, rfl, rfl⟩ := h
    obtain ⟨e', he, hsame⟩ := exp_of_tokens he
    refine ⟨_, @Statement.assign x.name.val s sAssign sEnd es e' he, ?_⟩
    simp only [Stmt.unplaced, Stmt.unmark, hsame]
    rfl
  | .store x i e, ts, h => by
    simp only [Stmt.tokens, List.map_eq_append_iff, List.map_eq_cons_iff, List.map_eq_nil_iff] at h
    obtain ⟨⟨_, s⟩, _, rfl, rfl, ⟨_, sOpen⟩, _, rfl, rfl, is, _, rfl, hi, ⟨_, sClose⟩, _, rfl, rfl, ⟨_, sAssign⟩, _, rfl,
      rfl, es, _, rfl, he, ⟨_, sEnd⟩, _, rfl, rfl, rfl⟩ := h
    obtain ⟨i', hi, hsameIndex⟩ := exp_of_tokens hi
    obtain ⟨e', he, hsame⟩ := exp_of_tokens he
    refine ⟨_, @Statement.store x.name.val s sOpen sClose sAssign sEnd is es i' e' hi he, ?_⟩
    simp only [Stmt.unplaced, Stmt.unmark, hsame, hsameIndex]
    rfl

theorem statements_of_tokens : ∀ {ss : List Stmt} {ts : Tokens}, ts.map (·.val) = Stmt.tokensAll extra ss →
    ∃ ss', Star Statement ts ss' ∧ Stmt.unplacedAll ss' = Stmt.unplacedAll (Stmt.unmarkAll ss)
  | [], ts, h => by
    simp only [Stmt.tokensAll, List.map_eq_nil_iff] at h
    exact ⟨[], h ▸ .nil, rfl⟩
  | s :: ss, ts, h => by
    simp only [Stmt.tokensAll, List.map_eq_append_iff] at h
    obtain ⟨us, vs, rfl, hs, hss⟩ := h
    obtain ⟨s', hs, hsame⟩ := statement_of_tokens hs
    obtain ⟨ss', hss, hsames⟩ := statements_of_tokens hss
    exact ⟨s' :: ss', .cons hs hss, by simp only [Stmt.unplacedAll, Stmt.unmarkAll, hsame, hsames]⟩

end

/-! ## Classes -/

theorem type_of_tokens {ty : Located Ty} {ts : Tokens} (h : ts.map (·.val) = ty.val.tokens) :
    ∃ ty', TypeName ts ty' ∧ ty'.unplaced = ty.unplaced := by
  rcases ty with ⟨ty, s⟩
  cases ty with
  | intArray =>
    simp only [Ty.tokens, List.map_eq_cons_iff, List.map_eq_nil_iff] at h
    obtain ⟨⟨_, s⟩, _, rfl, rfl, ⟨_, sOpen⟩, _, rfl, rfl, ⟨_, sClose⟩, _, rfl, rfl, rfl⟩ := h
    exact ⟨_, .intArray, rfl⟩
  | int =>
    obtain ⟨⟨_, s⟩, rfl, rfl⟩ := List.map_eq_singleton_iff.1 h
    exact ⟨_, .int, rfl⟩
  | boolean =>
    obtain ⟨⟨_, s⟩, rfl, rfl⟩ := List.map_eq_singleton_iff.1 h
    exact ⟨_, .boolean, rfl⟩
  | object c =>
    obtain ⟨⟨_, s⟩, rfl, rfl⟩ := List.map_eq_singleton_iff.1 h
    exact ⟨_, .object, rfl⟩

theorem decl_of_tokens {d : Declaration} {ts : Tokens} (h : ts.map (·.val) = d.tokens) :
    ∃ d', Decl ts d' ∧ d'.unplaced = d.unplaced := by
  simp only [Declaration.tokens, List.map_eq_append_iff, List.map_eq_singleton_iff] at h
  obtain ⟨us, _, rfl, hty, ⟨_, s⟩, rfl, rfl⟩ := h
  obtain ⟨ty', hty, hsame⟩ := type_of_tokens hty
  exact ⟨_, .intro hty (@Id.intro d.name.val s), by rw [Declaration.unplaced, hsame]; rfl⟩

theorem varDecl_of_tokens {d : Declaration} {ts : Tokens} (h : ts.map (·.val) = d.tokens ++ [.semicolon]) :
    ∃ d', VarDecl ts d' ∧ d'.unplaced = d.unplaced := by
  simp only [List.map_eq_append_iff, List.map_eq_singleton_iff] at h
  obtain ⟨us, _, rfl, hd, ⟨_, s⟩, rfl, rfl⟩ := h
  obtain ⟨d', hd, hsame⟩ := decl_of_tokens hd
  exact ⟨d', .intro hd, hsame⟩

section

variable {α β : Type} {R : Tokens → α → Prop} {spell : β → List Token} {f : α → α} {g : β → α}

/-- Constructs in a row are spelled one after another. -/
theorem star_of_flatMap (hR : ∀ b ts, ts.map (·.val) = spell b → ∃ a, R ts a ∧ f a = g b) : ∀ {bs : List β} {ts : Tokens},
    ts.map (·.val) = bs.flatMap spell → ∃ as, Star R ts as ∧ as.map f = bs.map g
  | [], ts, h => ⟨[], List.map_eq_nil_iff.1 h ▸ .nil, rfl⟩
  | b :: bs, ts, h => by
    rw [List.flatMap_cons, List.map_eq_append_iff] at h
    obtain ⟨us, vs, rfl, hb, hbs⟩ := h
    obtain ⟨a, ha, hsame⟩ := hR b us hb
    obtain ⟨as, has, hsames⟩ := star_of_flatMap hR hbs
    exact ⟨a :: as, .cons ha has, by rw [List.map_cons, hsame, hsames, List.map_cons]⟩

theorem commas_of_flatMap (hR : ∀ b ts, ts.map (·.val) = spell b → ∃ a, R ts a ∧ f a = g b) :
    ∀ {bs : List β} {ts : Tokens}, ts.map (·.val) = (bs.map spell).flatMap (.comma :: ·) →
      ∃ as, Commas R ts as ∧ as.map f = bs.map g
  | [], ts, h => ⟨[], List.map_eq_nil_iff.1 h ▸ .nil, rfl⟩
  | b :: bs, ts, h => by
    simp only [List.map_cons, List.flatMap_cons, List.map_eq_append_iff, List.map_eq_cons_iff] at h
    obtain ⟨_, vs, rfl, ⟨⟨_, s⟩, us, rfl, rfl, hb⟩, hbs⟩ := h
    obtain ⟨a, ha, hsame⟩ := hR b us hb
    obtain ⟨as, has, hsames⟩ := commas_of_flatMap hR hbs
    exact ⟨a :: as, .cons ha has, by rw [List.map_cons, hsame, hsames, List.map_cons]⟩

theorem separated_of_commaList (hR : ∀ b ts, ts.map (·.val) = spell b → ∃ a, R ts a ∧ f a = g b) {bs : List β}
    {ts : Tokens} (h : ts.map (·.val) = commaList (bs.map spell)) : ∃ as, Separated R ts as ∧ as.map f = bs.map g := by
  cases bs with
  | nil => exact ⟨[], List.map_eq_nil_iff.1 h ▸ .nil, rfl⟩
  | cons b bs =>
    simp only [List.map_cons, commaList, List.map_eq_append_iff] at h
    obtain ⟨us, vs, rfl, hb, hbs⟩ := h
    obtain ⟨a, ha, hsame⟩ := hR b us hb
    obtain ⟨as, has, hsames⟩ := commas_of_flatMap hR hbs
    exact ⟨a :: as, .cons ha has, by rw [List.map_cons, hsame, hsames, List.map_cons]⟩

end

theorem method_of_tokens (m : Method) (ts : Tokens) (h : ts.map (·.val) = m.tokens extra) :
    ∃ m', MethodDecl ts m' ∧ m'.unplaced = m.unmark.unplaced := by
  simp only [Method.tokens, List.map_eq_append_iff, List.map_eq_cons_iff, List.map_eq_nil_iff] at h
  obtain ⟨⟨_, s⟩, _, rfl, rfl, us, _, rfl, hty, ⟨_, sName⟩, _, rfl, rfl, ⟨_, sOpen⟩, _, rfl, rfl, fs, _, rfl, hf,
    ⟨_, sClose⟩, _, rfl, rfl, ⟨_, sBody⟩, _, rfl, rfl, ls, _, rfl, hl, ss, _, rfl, hs, ⟨_, sReturn⟩, _, rfl, rfl, es, _, rfl,
    he, ⟨_, sSemicolon⟩, _, rfl, rfl, ⟨_, sEnd⟩, _, rfl, rfl, rfl⟩ := h
  obtain ⟨returns, hty, hsameReturns⟩ := type_of_tokens hty
  obtain ⟨formals, hf, hsameFormals⟩ := separated_of_commaList (fun _ _ => decl_of_tokens) hf
  obtain ⟨locals, hl, hsameLocals⟩ := star_of_flatMap (fun _ _ => varDecl_of_tokens) hl
  obtain ⟨body, hs, hsameBody⟩ := statements_of_tokens hs
  obtain ⟨result, he, hsame⟩ := exp_of_tokens he
  have hmethod := @MethodDecl.intro s sOpen sReturn us _ fs _ ls ss es _ returns _ formals locals body result hty
    (@Id.intro m.name.val sName) hf (rfl : Fixed [.closeParen, .openCurly] [⟨_, sClose⟩, ⟨_, sBody⟩]) hl hs he
    (rfl : Fixed [.semicolon, .closeCurly] [⟨_, sSemicolon⟩, ⟨_, sEnd⟩])
  simp only [List.append_assoc, List.cons_append, List.nil_append] at hmethod
  refine ⟨_, hmethod, ?_⟩
  simp only [Method.unplaced, Method.unmark, hsameReturns, hsameFormals, hsameLocals, hsameBody, hsame]
  rfl

theorem extends_of_tokens {c : ClassDecl} {ts : Tokens} (h : ts.map (·.val) = c.parentTokens) :
    ∃ parent, Extends ts parent ∧ parent.map Located.unplaced = c.parent.map Located.unplaced := by
  rw [ClassDecl.parentTokens] at h
  cases hp : c.parent with
  | none =>
    simp only [hp, List.map_eq_nil_iff] at h
    exact ⟨none, h ▸ .root, rfl⟩
  | some parent =>
    simp only [hp, List.map_eq_cons_iff, List.map_eq_nil_iff] at h
    obtain ⟨⟨_, s⟩, _, rfl, rfl, ⟨_, sName⟩, _, rfl, rfl, rfl⟩ := h
    exact ⟨_, .parent (@Id.intro parent.val sName), rfl⟩

theorem class_of_tokens (c : ClassDecl) (ts : Tokens) (h : ts.map (·.val) = c.tokens extra) :
    ∃ c', Class ts c' ∧ c'.unplaced = c.unmark.unplaced := by
  simp only [ClassDecl.tokens, List.map_eq_append_iff, List.map_eq_cons_iff, List.map_eq_nil_iff] at h
  obtain ⟨⟨_, s⟩, _, rfl, rfl, ⟨_, sName⟩, _, rfl, rfl, ps, _, rfl, hp, ⟨_, sOpen⟩, _, rfl, rfl, fs, _, rfl, hf, ms, _, rfl,
    hm, ⟨_, sClose⟩, _, rfl, rfl, rfl⟩ := h
  obtain ⟨parent, hp, hsameParent⟩ := extends_of_tokens hp
  obtain ⟨fields, hf, hsameFields⟩ := star_of_flatMap (fun _ _ => varDecl_of_tokens) hf
  obtain ⟨methods, hm, hsameMethods⟩ := star_of_flatMap method_of_tokens hm
  have hclass := @Class.intro s sOpen sClose _ ps fs ms _ parent fields methods (@Id.intro c.name.val sName) hp hf hm
  simp only [List.append_assoc, List.cons_append, List.nil_append] at hclass
  refine ⟨_, hclass, ?_⟩
  simp only [ClassDecl.unplaced, ClassDecl.unmark, hsameParent, hsameFields, hsameMethods, List.map_map]
  rfl

theorem main_of_tokens {c : MainClass} {ts : Tokens} (h : ts.map (·.val) = c.tokens extra) :
    ∃ c', Main ts c' ∧ c'.unplaced = c.unmark.unplaced := by
  obtain ⟨⟨_, s⟩, _, rfl, rfl, h₁⟩ := List.map_eq_cons_iff.1 h
  obtain ⟨⟨_, sName⟩, _, rfl, rfl, h₂⟩ := List.map_eq_cons_iff.1 h₁
  obtain ⟨hs, _, rfl, hh, h₃⟩ := List.map_eq_append_iff.1 h₂
  obtain ⟨⟨_, sArgument⟩, _, rfl, rfl, h₄⟩ := List.map_eq_cons_iff.1 h₃
  obtain ⟨bs, _, rfl, hb, h₅⟩ := List.map_eq_append_iff.1 h₄
  obtain ⟨ss, zs, rfl, hs, hz⟩ := List.map_eq_append_iff.1 h₅
  obtain ⟨body, hs, hsame⟩ := statement_of_tokens hs
  have hmain := @Main.intro s _ _ _ bs ss zs _ _ body (@Id.intro c.name.val sName) hh
    (@Id.intro c.argument.val sArgument) hb hs hz
  simp only [List.append_assoc, List.cons_append, List.nil_append] at hmain
  refine ⟨_, hmain, ?_⟩
  simp only [MainClass.unplaced, MainClass.unmark, hsame]
  rfl

/-- **Every spelling of a program is in the grammar.** -/
theorem goal_of_tokens {p : Program} {ts : Tokens} (h : ts.map (·.val) = p.tokens extra) :
    ∃ p', Goal ts p' ∧ p'.unplaced = p.unmark.unplaced := by
  obtain ⟨us, vs, rfl, hmain, hclasses⟩ := List.map_eq_append_iff.1 h
  obtain ⟨main, hmain, hsame⟩ := main_of_tokens hmain
  obtain ⟨classes, hclasses, hsames⟩ := star_of_flatMap class_of_tokens hclasses
  refine ⟨_, .intro hmain hclasses, ?_⟩
  simp only [Program.unplaced, Program.unmark, hsame, hsames, List.map_map]
  rfl

end Grammar

/-! ## The parser and the grammar -/

theorem Program.parse_eq_ok {eof : Span} {ts : Tokens} {p : Program} :
    Program.parse eof ts = .ok p ↔ Grammar.Goal ts p := by
  rw [Program.parse, mapError_eq_ok, Grammar.program_eq_ok]

/-- **The parser accepts exactly the documented grammar and answers its unique tree.**  Whatever the tokens, they are
parsed as `p` just where the grammar yields them from `p`; it yields them from no second tree; and each spelling of a
program, with the fewest parentheses, with all of them or with any between, wherever its tokens stand, is parsed as that
program up to places and marks. -/
theorem Program.parse_eq_ok_iff_goal (eof : Span) (ts : Tokens) :
    (∀ p, Program.parse eof ts = .ok p ↔ Grammar.Goal ts p) ∧
      (∀ p q, Grammar.Goal ts p → Grammar.Goal ts q → p = q) ∧
      ∀ (p : Program) (extra : Expr → Bool), ts.map (·.val) = p.tokens extra →
        ∃ q, Program.parse eof ts = .ok q ∧ q.unplaced = p.unmark.unplaced := by
  refine ⟨fun p => Program.parse_eq_ok, fun p q hp hq => ?_, fun p extra h => ?_⟩
  · have hparsed : Program.parse eof ts = .ok p := Program.parse_eq_ok.2 hp
    rw [Program.parse_eq_ok.2 hq] at hparsed
    exact (Except.ok.inj hparsed).symm
  · obtain ⟨q, hq, hsame⟩ := Grammar.goal_of_tokens h
    exact ⟨q, Program.parse_eq_ok.2 hq, hsame⟩

/-- A main class that prints `2 * (3 + 4)`, read without places. -/
def Program.printsProduct : Program :=
  let name (x : Name) : Located Name := ⟨x, .nowhere⟩
  let mark : Mark := ⟨.nowhere, none⟩
  let sum := Expr.binary mark (.literal mark 3) .add (.literal mark 4)
  ⟨⟨name "Main", name "args", .print (.binary mark (.literal mark 2) .mul sum)⟩, []⟩

/-- The same program in parentheses wherever they can stand. -/
def Program.printsProductTokens : Tokens := (printsProduct.tokens fun _ => true).map (⟨·, .nowhere⟩)

theorem Program.parse_printsProduct : ∃ q, Program.parse .nowhere printsProductTokens = .ok q ∧
    Grammar.Goal printsProductTokens q ∧ (∀ p, Grammar.Goal printsProductTokens p → p = q) ∧
      q.unplaced = printsProduct := by
  obtain ⟨hread, hunique, hspelled⟩ := Program.parse_eq_ok_iff_goal .nowhere printsProductTokens
  obtain ⟨q, hq, hsame⟩ := hspelled printsProduct (fun _ => true) rfl
  have hgoal := (hread q).1 hq
  exact ⟨q, hq, hgoal, fun p hp => hunique p q hp hgoal, hsame⟩

end MiniJava
