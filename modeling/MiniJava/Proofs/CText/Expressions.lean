import MiniJava.Proofs.CText.Grammar
import MiniJava.Proofs.Table
/-!
# Tokens of C yield one expression

The grammar of C is recursive on the left and does not say where an expression ends.  A reader from the left does: it
reads an operand of a layer and goes on for as long as the next token carries the expression on (`Reads`, `GoesOn`).  Each
of its steps is determined by what it has in front of it, so that it reads one tree at most (`Reads.unique`), and it reads
all that the grammar yields (`Exp.reads`).  So tokens yield one expression at most (`Exp.unique`).
-/
namespace MiniJava.CText

open CToken (word number mark)

/-! ## Reading expressions -/

/-- The layer in which a token behind an expression carries it on. -/
def carriesOn? : CToken → Option Nat
  | mark m => if m = "=" then some 1 else if m ∈ ["[", "(", ".", "->"] then some 15 else valueOf? m operators
  | _ => none

/-- Whether a type in parentheses comes next. -/
def CastAhead : List CToken → Prop
  | mark "(" :: word w :: _ => w = "int" ∨ w = "struct"
  | _ => False

mutual

/-- **What is read from the front of the tokens as an expression of a layer**, and what is left of them. -/
inductive Reads : Nat → List CToken → CTree → List CToken → Prop
  | operands {k : Nat} {ts us vs : List CToken} {l e : CTree} : k < 13 → Reads (k + 1) ts l us → GoesOn k l us e vs →
      Reads k ts e vs
  | cast {ty : CType} {ts us : List CToken} {e : CTree} : Reads 13 ts e us →
      Reads 13 (mark "(" :: ty.tokens ++ mark ")" :: ts) (.cast ty e) us
  | uncast {ts us : List CToken} {e : CTree} : ¬ CastAhead ts → Reads 14 ts e us → Reads 13 ts e us
  | unary {op : String} {ts us : List CToken} {e : CTree} : op ∈ unaryOperators → Reads 13 ts e us →
      Reads 14 (mark op :: ts) (.unary op e) us
  | plain {ts us : List CToken} {e : CTree} : (∀ op ∈ unaryOperators, ts.head? ≠ some (mark op)) → Reads 15 ts e us →
      Reads 14 ts e us
  | suffixes {ts us vs : List CToken} {l e : CTree} : Reads 16 ts l us → GoesOn 15 l us e vs → Reads 15 ts e vs
  | name {x : String} {ts : List CToken} : Reads 16 (word x :: ts) (.name x) ts
  | number {n : Nat} {ts : List CToken} : Reads 16 (number n :: ts) (.number n) ts
  | paren {ts us : List CToken} {e : CTree} : Reads 0 ts e (mark ")" :: us) → Reads 16 (mark "(" :: ts) e us

/-- **How an expression of a layer goes on** from one that has been read. -/
inductive GoesOn : Nat → CTree → List CToken → CTree → List CToken → Prop
  | stop {k : Nat} {l : CTree} {ts : List CToken} : (∀ t ∈ ts.head?, carriesOn? t ≠ some k) → GoesOn k l ts l ts
  | binary {k : Nat} {op : String} {ts us vs : List CToken} {l r e : CTree} : (op, k) ∈ operators →
      Reads (k + 1) ts r us → GoesOn k (.binary op l r) us e vs → GoesOn k l (mark op :: ts) e vs
  | assign {ts us : List CToken} {l r : CTree} : Reads 1 ts r us → GoesOn 1 l (mark "=" :: ts) (.assign l r) us
  | index {ts us vs : List CToken} {a i e : CTree} : Reads 0 ts i (mark "]" :: us) → GoesOn 15 (.index a i) us e vs →
      GoesOn 15 a (mark "[" :: ts) e vs
  | call {ts us vs : List CToken} {f e : CTree} {es : List CTree} : ReadsArguments ts es (mark ")" :: us) →
      GoesOn 15 (.call f es) us e vs → GoesOn 15 f (mark "(" :: ts) e vs
  | member {ts us : List CToken} {l e : CTree} {x : String} : GoesOn 15 (.member l x) ts e us →
      GoesOn 15 l (mark "." :: word x :: ts) e us
  | arrow {ts us : List CToken} {l e : CTree} {x : String} : GoesOn 15 (.arrow l x) ts e us →
      GoesOn 15 l (mark "->" :: word x :: ts) e us

/-- The arguments up to a closing parenthesis. -/
inductive ReadsArguments : List CToken → List CTree → List CToken → Prop
  | none {ts : List CToken} : ts.head? = some (mark ")") → ReadsArguments ts [] ts
  | some {ts us : List CToken} {es : List CTree} : ts.head? ≠ some (mark ")") → ReadsList ts es us →
      ReadsArguments ts es us

inductive ReadsList : List CToken → List CTree → List CToken → Prop
  | last {ts us : List CToken} {e : CTree} : Reads 1 ts e us → us.head? ≠ some (mark ",") → ReadsList ts [e] us
  | cons {ts us vs : List CToken} {e : CTree} {es : List CTree} : Reads 1 ts e (mark "," :: us) → ReadsList us es vs →
      ReadsList ts (e :: es) vs

end

/-! ## One tree -/

theorem carriesOn?_operator {op : String} {k : Nat} (h : (op, k) ∈ operators) : carriesOn? (mark op) = some k := by
  have hall : ∀ o ∈ operators, carriesOn? (mark o.1) = some o.2 := by decide
  exact hall _ h

theorem replicate_append_inj {a b : CToken} (hne : a ≠ b) : ∀ {m n : Nat} {ts us : List CToken},
    List.replicate m a ++ b :: ts = List.replicate n a ++ b :: us → m = n ∧ ts = us
  | 0, 0, _, _, h => ⟨rfl, (List.cons.inj h).2⟩
  | 0, _ + 1, _, _, h => absurd (List.cons.inj h).1.symm hne
  | _ + 1, 0, _, _, h => absurd (List.cons.inj h).1 hne
  | m + 1, n + 1, _, _, h => by
    obtain ⟨hmn, hts⟩ := replicate_append_inj hne (List.cons.inj h).2
    exact ⟨congrArg (· + 1) hmn, hts⟩

/-- The tokens of a type end where its stars end. -/
theorem CType.tokens_append_inj {ty ty' : CType} {ts ts' : List CToken}
    (h : ty.tokens ++ mark ")" :: ts = ty'.tokens ++ mark ")" :: ts') : ty = ty' ∧ ts = ts' := by
  obtain ⟨tag, stars⟩ := ty
  obtain ⟨tag', stars'⟩ := ty'
  simp only [CType.tokens, List.append_assoc] at h
  cases tag <;> cases tag'
  · obtain ⟨hstars, hts⟩ := replicate_append_inj (by decide) (List.cons.inj h).2
    exact ⟨congrArg (CType.mk none) hstars, hts⟩
  · exact absurd (List.cons.inj h).1 (by decide)
  · exact absurd (List.cons.inj h).1 (by decide)
  · obtain ⟨htag, h⟩ := List.cons.inj (List.cons.inj h).2
    obtain ⟨hstars, hts⟩ := replicate_append_inj (by decide) h
    cases htag
    exact ⟨congrArg (CType.mk _) hstars, hts⟩

theorem CType.castAhead (ty : CType) (ts : List CToken) : CastAhead (mark "(" :: ty.tokens ++ ts) := by
  obtain ⟨_ | tag, stars⟩ := ty
  · exact .inl rfl
  · exact .inr rfl

mutual

theorem Reads.unique : ∀ {k : Nat} {ts us us' : List CToken} {e e' : CTree}, Reads k ts e us → Reads k ts e' us' →
    e = e' ∧ us = us'
  | _, _, _, _, _, _, .operands hk hl hon, h' => by
    cases h' with
    | operands _ hl' hon' =>
      obtain ⟨rfl, rfl⟩ := hl.unique hl'
      exact hon.unique hon'
    | _ => omega
  | _, _, _, _, _, _, @Reads.cast ty ts us e he, h' => by
    generalize hws : mark "(" :: ty.tokens ++ mark ")" :: ts = ws at h'
    cases h' with
    | operands hk _ _ => omega
    | cast he' =>
      obtain ⟨rfl, rfl⟩ := CType.tokens_append_inj (List.cons.inj hws).2
      obtain ⟨rfl, rfl⟩ := he.unique he'
      exact ⟨rfl, rfl⟩
    | uncast hnot _ => exact absurd (hws ▸ CType.castAhead ty _) hnot
  | _, _, _, _, _, _, .uncast hnot he, h' => by
    cases h' with
    | operands hk _ _ => omega
    | cast _ => exact absurd (CType.castAhead _ _) hnot
    | uncast _ he' => exact he.unique he'
  | _, _, _, _, _, _, .unary hop he, h' => by
    cases h' with
    | operands hk _ _ => omega
    | unary _ he' =>
      obtain ⟨rfl, rfl⟩ := he.unique he'
      exact ⟨rfl, rfl⟩
    | plain hnot _ => exact absurd rfl (hnot _ hop)
  | _, _, _, _, _, _, .plain hnot he, h' => by
    cases h' with
    | operands hk _ _ => omega
    | unary hop _ => exact absurd rfl (hnot _ hop)
    | plain _ he' => exact he.unique he'
  | _, _, _, _, _, _, .suffixes hl hon, h' => by
    cases h' with
    | operands hk _ _ => omega
    | suffixes hl' hon' =>
      obtain ⟨rfl, rfl⟩ := hl.unique hl'
      exact hon.unique hon'
  | _, _, _, _, _, _, .name, h' => by
    cases h' with
    | operands hk _ _ => omega
    | name => exact ⟨rfl, rfl⟩
  | _, _, _, _, _, _, .number, h' => by
    cases h' with
    | operands hk _ _ => omega
    | number => exact ⟨rfl, rfl⟩
  | _, _, _, _, _, _, .paren he, h' => by
    cases h' with
    | operands hk _ _ => omega
    | paren he' =>
      obtain ⟨rfl, heq⟩ := he.unique he'
      exact ⟨rfl, (List.cons.inj heq).2⟩
termination_by structural _ _ _ _ _ _ h => h

theorem GoesOn.unique : ∀ {k : Nat} {l e e' : CTree} {ts us us' : List CToken}, GoesOn k l ts e us →
    GoesOn k l ts e' us' → e = e' ∧ us = us'
  | _, _, _, _, _, _, _, .stop hnot, h' => by
    cases h' with
    | stop _ => exact ⟨rfl, rfl⟩
    | binary hop _ _ => exact absurd (carriesOn?_operator hop) (hnot _ rfl)
    | _ => exact absurd rfl (hnot _ rfl)
  | _, _, _, _, _, _, _, .binary hop hr hon, h' => by
    cases h' with
    | stop hnot => exact absurd (carriesOn?_operator hop) (hnot _ rfl)
    | binary _ hr' hon' =>
      obtain ⟨rfl, rfl⟩ := hr.unique hr'
      exact hon.unique hon'
    | _ => exact absurd hop (by decide)
  | _, _, _, _, _, _, _, .assign hr, h' => by
    cases h' with
    | stop hnot => exact absurd rfl (hnot _ rfl)
    | binary hop _ _ => exact absurd hop (by decide)
    | assign hr' =>
      obtain ⟨rfl, rfl⟩ := hr.unique hr'
      exact ⟨rfl, rfl⟩
  | _, _, _, _, _, _, _, @GoesOn.index ts us vs a i e hi hon, h' => by
    -- Cases on `h'` as it stands would have to tell this mark from every operator.
    generalize hws : mark "[" :: ts = ws at h'
    cases h' with
    | stop hnot => cases hws; exact absurd rfl (hnot _ rfl)
    | binary hop _ _ => cases hws; exact absurd hop (by decide)
    | index hi' hon' =>
      cases hws
      obtain ⟨rfl, heq⟩ := hi.unique hi'
      cases heq
      exact hon.unique hon'
    | _ => simp at hws
  | _, _, _, _, _, _, _, @GoesOn.call ts us vs f e es has hon, h' => by
    generalize hws : mark "(" :: ts = ws at h'
    cases h' with
    | stop hnot => cases hws; exact absurd rfl (hnot _ rfl)
    | binary hop _ _ => cases hws; exact absurd hop (by decide)
    | call has' hon' =>
      cases hws
      obtain ⟨rfl, heq⟩ := has.unique has'
      cases heq
      exact hon.unique hon'
    | _ => simp at hws
  | _, _, _, _, _, _, _, @GoesOn.member ts us l e x hon, h' => by
    generalize hws : mark "." :: word x :: ts = ws at h'
    cases h' with
    | stop hnot => cases hws; exact absurd rfl (hnot _ rfl)
    | binary hop _ _ => cases hws; exact absurd hop (by decide)
    | member hon' => cases hws; exact hon.unique hon'
    | _ => simp at hws
  | _, _, _, _, _, _, _, @GoesOn.arrow ts us l e x hon, h' => by
    generalize hws : mark "->" :: word x :: ts = ws at h'
    cases h' with
    | stop hnot => cases hws; exact absurd rfl (hnot _ rfl)
    | binary hop _ _ => cases hws; exact absurd hop (by decide)
    | arrow hon' => cases hws; exact hon.unique hon'
    | _ => simp at hws
termination_by structural _ _ _ _ _ _ _ h => h

theorem ReadsArguments.unique : ∀ {ts us us' : List CToken} {es es' : List CTree}, ReadsArguments ts es us →
    ReadsArguments ts es' us' → es = es' ∧ us = us'
  | _, _, _, _, _, .none hclose, h' => by
    cases h' with
    | none _ => exact ⟨rfl, rfl⟩
    | some hne _ => exact absurd hclose hne
  | _, _, _, _, _, .some hne hes, h' => by
    cases h' with
    | none hclose => exact absurd hclose hne
    | some _ hes' => exact hes.unique hes'
termination_by structural _ _ _ _ _ h => h

theorem ReadsList.unique : ∀ {ts us us' : List CToken} {es es' : List CTree}, ReadsList ts es us → ReadsList ts es' us' →
    es = es' ∧ us = us'
  | _, _, _, _, _, .last he hne, h' => by
    cases h' with
    | last he' _ =>
      obtain ⟨rfl, rfl⟩ := he.unique he'
      exact ⟨rfl, rfl⟩
    | cons he' _ =>
      obtain ⟨-, rfl⟩ := he.unique he'
      exact absurd rfl hne
  | _, _, _, _, _, .cons he hes, h' => by
    cases h' with
    | last he' hne =>
      obtain ⟨-, rfl⟩ := he.unique he'
      exact absurd rfl hne
    | cons he' hes' =>
      obtain ⟨rfl, heq⟩ := he.unique he'
      cases heq
      obtain ⟨rfl, rfl⟩ := hes.unique hes'
      exact ⟨rfl, rfl⟩
termination_by structural _ _ _ _ _ h => h

end

/-! ## All that the grammar yields -/

/-- No token follows that carries an expression on in layer `k` or a tighter one. -/
def Ends (k : Nat) (ts : List CToken) : Prop := ∀ t ∈ ts.head?, ∀ l, carriesOn? t = some l → l < k

theorem Ends.mono {j k : Nat} {ts : List CToken} (h : Ends j ts) (hjk : j ≤ k) : Ends k ts :=
  fun t ht l hl => Nat.lt_of_lt_of_le (h t ht l hl) hjk

theorem Ends.of_none {k : Nat} {t : CToken} {ts : List CToken} (h : carriesOn? t = none) : Ends k (t :: ts) := by
  intro u hu l hl
  cases hu
  rw [h] at hl
  cases hl

theorem Ends.of_carriesOn {k l : Nat} {t : CToken} {ts : List CToken} (h : carriesOn? t = some l) (hl : l < k) :
    Ends k (t :: ts) := by
  intro u hu l' hl'
  cases hu
  rw [h] at hl'
  cases hl'
  exact hl

theorem GoesOn.of_ends {k : Nat} {e : CTree} {ts : List CToken} (h : Ends k ts) : GoesOn k e ts e ts :=
  .stop fun t ht hk => Nat.lt_irrefl k (h t ht k hk)

/-- How an expression begins. -/
def Starts : CToken → Prop
  | word x => x ∉ grammarWords
  | number _ => True
  | mark m => m = "(" ∨ m ∈ unaryOperators

theorem not_castAhead_of_starts {t : CToken} (h : Starts t) (ts : List CToken) : ¬ CastAhead (mark "(" :: t :: ts) := by
  cases t with
  | word w => rintro (rfl | rfl) <;> exact h (by decide)
  | _ => exact id

theorem not_castAhead_of_unary {op : String} (hop : op ∈ unaryOperators) (ts : List CToken) :
    ¬ CastAhead (mark op :: ts) := by
  have hne : op ≠ "(" := fun heq => absurd (heq ▸ hop) (by decide)
  rw [CastAhead]
  · exact id
  · rintro w us heq
    exact hne (CToken.mark.inj (List.cons.inj heq).1)

theorem layer_of_operator {op : String} {k : Nat} (h : (op, k) ∈ operators) : k < 13 ∧ k ≠ 1 := by
  have hall : ∀ o ∈ operators, o.2 < 13 ∧ o.2 ≠ 1 := by decide
  exact hall _ h

/-- An expression begins as one does, in the tight layers neither with a cast nor with an operator. -/
theorem Exp.head : ∀ {k : Nat} {ts : List CToken} {e : CTree}, Exp k ts e → ∃ t us, ts = t :: us ∧ Starts t ∧
    (14 ≤ k → ∀ rest, ¬ CastAhead (t :: us ++ rest)) ∧ (15 ≤ k → ∀ op ∈ unaryOperators, t ≠ mark op)
  | _, _, _, .looser _ h => by
    obtain ⟨t, us, rfl, hstarts, hcast, hunary⟩ := h.head
    exact ⟨t, us, rfl, hstarts, fun hk => hcast (by omega), fun hk => hunary (by omega)⟩
  | _, _, _, .binary hop hl _ => by
    have hk := layer_of_operator hop
    obtain ⟨t, us, rfl, hstarts, -⟩ := hl.head
    exact ⟨t, _, rfl, hstarts, by omega, by omega⟩
  | _, _, _, .assign hl _ => by
    obtain ⟨t, us, rfl, hstarts, -⟩ := hl.head
    exact ⟨t, _, rfl, hstarts, by omega, by omega⟩
  | _, _, _, .cast _ => ⟨_, _, rfl, .inl rfl, by omega, by omega⟩
  | _, _, _, .unary hop _ => ⟨_, _, rfl, .inr hop, fun _ _ => not_castAhead_of_unary hop _, by omega⟩
  | _, _, _, .index h _ | _, _, _, .call h _ | _, _, _, .member h | _, _, _, .arrow h => by
    obtain ⟨t, us, rfl, hstarts, hcast, hunary⟩ := h.head
    refine ⟨t, _, rfl, hstarts, fun _ rest => ?_, fun _ => hunary (by omega)⟩
    have hnot := hcast (by omega)
    simp only [List.append_eq, List.append_assoc, List.cons_append] at hnot ⊢
    exact hnot _
  | _, _, _, .name hx => ⟨_, _, rfl, hx, fun _ _ => id, fun _ _ _ => nofun⟩
  | _, _, _, .number => ⟨_, _, rfl, trivial, fun _ _ => id, fun _ _ _ => nofun⟩
  | _, _, _, .paren h => by
    obtain ⟨t, us, rfl, hstarts, -⟩ := h.head
    refine ⟨_, _, rfl, .inl rfl, fun _ rest => not_castAhead_of_starts hstarts _, fun _ op hop heq => ?_⟩
    exact absurd (CToken.mark.inj heq ▸ hop) (by decide)
termination_by structural _ _ _ h => h

theorem ArgumentList.head : ∀ {ts : List CToken} {es : List CTree}, ArgumentList ts es → ∃ t us, ts = t :: us ∧ Starts t
  | _, _, .last h | _, _, .cons h _ => by
    obtain ⟨t, us, rfl, hstarts, -⟩ := h.head
    exact ⟨t, _, rfl, hstarts⟩

/-! ### From layer to layer -/

/-- Nothing carries an expression on in the layers of casts and of the operators in front. -/
theorem GoesOn.eq {k : Nat} {ts us : List CToken} {l e : CTree} (h : GoesOn k l ts e us) (hk : k = 13 ∨ k = 14 ∨ k = 16) :
    l = e ∧ ts = us := by
  cases h with
  | stop _ => exact ⟨rfl, rfl⟩
  | binary hop _ _ => have := layer_of_operator hop; omega
  | _ => omega

/-- An expression of the next layer and what carries it on make an expression of a layer. -/
theorem Reads.step {k : Nat} {ts us vs : List CToken} {l e : CTree} (hk : k < 16) (hcast : 13 ≤ k → ¬ CastAhead ts)
    (hunary : 14 ≤ k → ∀ op ∈ unaryOperators, ts.head? ≠ some (mark op)) (h : Reads (k + 1) ts l us)
    (hon : GoesOn k l us e vs) : Reads k ts e vs := by
  obtain hk | rfl | rfl | rfl : k < 13 ∨ k = 13 ∨ k = 14 ∨ k = 15 := by omega
  · exact .operands hk h hon
  · obtain ⟨rfl, rfl⟩ := hon.eq (.inl rfl)
    exact .uncast (hcast (Nat.le_refl 13)) h
  · obtain ⟨rfl, rfl⟩ := hon.eq (.inr (.inl rfl))
    exact .plain (hunary (Nat.le_refl 14)) h
  · exact .suffixes h hon

/-- Where nothing carries it on, an expression of a tighter layer is one of a looser layer. -/
theorem Reads.loosen {j k : Nat} {ts us : List CToken} {e : CTree} (hjk : j ≤ k) (hk : k ≤ 13) (h : Reads k ts e us)
    (hends : Ends j us) : Reads j ts e us := by
  induction hjk with
  | refl => exact h
  | step hjk ih => exact ih (by omega) (.operands (by omega) h (.of_ends (hends.mono hjk)))

theorem carriesOn?_lt {t : CToken} {l : Nat} (h : carriesOn? t = some l) : l < 13 ∨ l = 15 := by
  cases t with
  | mark m =>
    rw [carriesOn?] at h
    split at h
    · cases h
      decide
    split at h
    · cases h
      decide
    · exact .inl (layer_of_operator (mem_of_valueOf?_eq_some h)).1
  | _ => cases h

theorem Ends.tight {ts : List CToken} (h : Ends 15 ts) : Ends 13 ts := fun t ht l hl => by
  have := carriesOn?_lt hl
  have := h t ht l hl
  omega

theorem GoesOn.tight {k : Nat} (hk : k = 13 ∨ k = 14) (e : CTree) (ts : List CToken) : GoesOn k e ts e ts :=
  .stop fun t _ hl => by
    have := carriesOn?_lt hl
    omega

/-- Behind an assignment no other one goes on. -/
theorem GoesOn.eq_of_ends {ts us : List CToken} {l e : CTree} (h : GoesOn 1 l ts e us) (hends : Ends 1 ts) :
    l = e ∧ ts = us := by
  cases h with
  | stop _ => exact ⟨rfl, rfl⟩
  | binary hop _ _ => exact absurd (hends _ rfl 1 (carriesOn?_operator hop)) (Nat.lt_irrefl 1)
  | assign _ => exact absurd (hends _ rfl 1 rfl) (Nat.lt_irrefl 1)

mutual

/-- **Reading the tokens of an expression comes down to going on from it.**  Only assignments do not go on. -/
theorem Exp.reads : ∀ {k : Nat} {ts : List CToken} {e : CTree}, Exp k ts e → ∀ {rest rest' : List CToken} {e' : CTree},
    Ends (k + 1) rest → (k = 1 → Ends 1 rest) → GoesOn k e rest e' rest' → Reads k (ts ++ rest) e' rest'
  | k, ts, e, .looser hk h, rest, rest', e', hends, _, hon => by
    -- In the tighter layer nothing carries the expression on, so it is read whole there, and goes on in this one.
    have hread : Reads (k + 1) (ts ++ rest) e rest :=
      h.reads (hends.mono (by omega)) (fun hk => hk ▸ hends) (.of_ends hends)
    obtain ⟨t, us, rfl, -, hcast, hunary⟩ := h.head
    refine .step hk (fun hk => hcast (by omega) rest) (fun hk op hop heq => ?_) hread hon
    exact hunary (by omega) op hop (Option.some.inj heq)
  | k, _, _, @Exp.binary _ op ls rs l r hop hl hr, rest, rest', e', hends, _, hon => by
    have hright : Reads (k + 1) (rs ++ rest) r rest :=
      hr.reads (hends.mono (by omega)) (fun hk => hk ▸ hends) (.of_ends hends)
    have hnext : Ends (k + 1) (mark op :: (rs ++ rest)) := .of_carriesOn (carriesOn?_operator hop) (Nat.lt_succ_self k)
    rw [List.append_assoc]
    exact hl.reads hnext (fun hk => absurd hk (layer_of_operator hop).2) (.binary hop hright hon)
  | _, _, _, @Exp.assign ls rs l r hl hr, rest, rest', e', hends, hnone, hon => by
    obtain ⟨rfl, rfl⟩ := hon.eq_of_ends (hnone rfl)
    have hright : Reads 1 (rs ++ rest) r rest := hr.reads hends hnone (.of_ends (hnone rfl))
    have hleft : Reads 14 (ls ++ mark "=" :: (rs ++ rest)) l (mark "=" :: (rs ++ rest)) :=
      hl.reads (.of_carriesOn rfl (by omega)) nofun (.tight (.inr rfl) _ _)
    obtain ⟨t, us, rfl, -, hcast, -⟩ := hl.head
    rw [List.append_assoc]
    exact .operands (by omega) (.loosen (by omega) (Nat.le_refl 13) (.uncast (hcast (Nat.le_refl 14) _) hleft)
      (.of_carriesOn rfl (by omega))) (.assign hright)
  | _, _, _, @Exp.cast ty ts e h, rest, rest', e', hends, _, hon => by
    obtain ⟨rfl, rfl⟩ := hon.eq (.inl rfl)
    have hread : Reads 13 (ts ++ rest) e rest := h.reads hends nofun (.tight (.inl rfl) _ _)
    rw [List.append_assoc]
    exact .cast hread
  | _, _, _, @Exp.unary op ts e hop h, rest, rest', e', hends, _, hon => by
    obtain ⟨rfl, rfl⟩ := hon.eq (.inr (.inl rfl))
    exact .unary hop (h.reads (hends.tight.mono (by omega)) nofun (.tight (.inl rfl) _ _))
  | _, _, _, @Exp.index as is a i ha hi, rest, rest', e', hends, _, hon => by
    have hindex : Reads 0 (is ++ mark "]" :: rest) i (mark "]" :: rest) :=
      hi.reads (.of_none rfl) nofun (.of_ends (.of_none rfl))
    rw [List.append_assoc, List.append_assoc]
    exact ha.reads (.of_carriesOn rfl (by omega)) nofun (.index hindex hon)
  | _, _, _, @Exp.call fs as f es hf has, rest, rest', e', hends, _, hon => by
    rw [List.append_assoc, List.append_assoc]
    exact hf.reads (.of_carriesOn rfl (by omega)) nofun (.call has.reads hon)
  | _, _, _, @Exp.member ts e x h, rest, rest', e', hends, _, hon => by
    rw [List.append_assoc]
    exact h.reads (.of_carriesOn rfl (by omega)) nofun (.member hon)
  | _, _, _, @Exp.arrow ts e x h, rest, rest', e', hends, _, hon => by
    rw [List.append_assoc]
    exact h.reads (.of_carriesOn rfl (by omega)) nofun (.arrow hon)
  | _, _, _, .name _, _, _, _, _, _, hon => by
    obtain ⟨rfl, rfl⟩ := hon.eq (.inr (.inr rfl))
    exact .name
  | _, _, _, .number, _, _, _, _, _, hon => by
    obtain ⟨rfl, rfl⟩ := hon.eq (.inr (.inr rfl))
    exact .number
  | _, _, _, @Exp.paren ts e h, rest, rest', e', hends, _, hon => by
    obtain ⟨rfl, rfl⟩ := hon.eq (.inr (.inr rfl))
    have hread : Reads 0 (ts ++ mark ")" :: rest) e (mark ")" :: rest) :=
      h.reads (.of_none rfl) nofun (.of_ends (.of_none rfl))
    rw [List.append_assoc]
    exact .paren hread
termination_by structural _ _ _ h => h

theorem Arguments.reads : ∀ {ts : List CToken} {es : List CTree}, Arguments ts es → ∀ {rest : List CToken},
    ReadsArguments (ts ++ mark ")" :: rest) es (mark ")" :: rest)
  | _, _, .none, _ => .none rfl
  | _, _, .some h, rest => by
    obtain ⟨t, us, heq, hstarts⟩ := h.head
    refine .some (fun hclose => ?_) h.reads
    rw [heq] at hclose
    cases hclose
    exact absurd hstarts (by rintro (h | h) <;> exact absurd h (by decide))
termination_by structural _ _ h => h

theorem ArgumentList.reads : ∀ {ts : List CToken} {es : List CTree}, ArgumentList ts es → ∀ {rest : List CToken},
    ReadsList (ts ++ mark ")" :: rest) es (mark ")" :: rest)
  | _, _, .last h, _ => .last (h.reads (.of_none rfl) (fun _ => .of_none rfl) (.of_ends (.of_none rfl))) (by simp)
  | _, _, @ArgumentList.cons ts us e es h hes, rest => by
    rw [List.append_assoc]
    exact .cons (h.reads (.of_carriesOn rfl (by omega)) (fun _ => .of_carriesOn rfl (by omega))
      (.of_ends (.of_carriesOn rfl (by omega)))) hes.reads
termination_by structural _ _ h => h

end

/-- **The tokens of an expression are read as that expression**, if nothing follows that carries it on. -/
theorem Exp.reads_of_ends {ts rest : List CToken} {e : CTree} (h : Exp 0 ts e) (hends : Ends 0 rest) :
    Reads 0 (ts ++ rest) e rest :=
  h.reads (hends.mono (by omega)) nofun (.of_ends hends)

theorem Ends.nil {k : Nat} : Ends k [] := nofun

/-- **Tokens yield one expression at most.** -/
theorem Exp.unique {ts : List CToken} {e e' : CTree} (h : Exp 0 ts e) (h' : Exp 0 ts e') : e = e' :=
  ((h.reads_of_ends .nil).unique (h'.reads_of_ends .nil)).1

end MiniJava.CText
