import MiniJava.Proofs.Grammar.Rules
import MiniJava.Proofs.Sequencing
/-!
# What a rule reads

A rule reads the front of its tokens and leaves the rest (`Reads`); the grammar splits tokens in the same way (`Splits`).
For each rule of the parser the two are set side by side.  Where a rule goes on for as long as it can, the rest must not
begin with what would carry it on.
-/
namespace MiniJava.Grammar

open Parse

variable {α β : Type} {n m : Nat}

/-- The rule succeeds with `a` and leaves `rest`. -/
def Reads (r : Except Refusal (Parsed α n)) (a : α) (rest : Tokens) : Prop := ∃ h, r = .ok ⟨a, rest, h⟩

/-- The front of `ts` yields `a`, and `rest` comes after it. -/
def Splits (R : Tokens → α → Prop) (ts : Tokens) (a : α) (rest : Tokens) : Prop := ∃ us, R us a ∧ ts = us ++ rest

/-- The token that comes next. -/
def next? (ts : Tokens) : Option Token := ts.head?.map (·.val)

/-! ## Steps in a row -/

theorem reads_pure {a b : α} {ts us : Tokens} {h : ts.length < n} :
    Reads (pure ⟨a, ts, h⟩) b us ↔ a = b ∧ ts = us := by
  constructor
  · rintro ⟨_, heq⟩
    cases heq
    exact ⟨rfl, rfl⟩
  · rintro ⟨rfl, rfl⟩
    exact ⟨h, rfl⟩

theorem reads_ok {a b : α} {ts us : Tokens} {h : ts.length < n} :
    Reads (.ok ⟨a, ts, h⟩) b us ↔ a = b ∧ ts = us := reads_pure

theorem Reads.lt {r : Except Refusal (Parsed α n)} {a : α} {ts : Tokens} (h : Reads r a ts) : ts.length < n := h.1

theorem parsed_bind_eq_ok {x : Except Refusal (Parsed α n)} {f : Parsed α n → Except Refusal β} {b : β} :
    (x >>= f) = .ok b ↔ ∃ a ts, ∃ h : Reads x a ts, f ⟨a, ts, h.lt⟩ = .ok b := by
  rw [bind_eq_ok]
  constructor
  · rintro ⟨p, hp, h⟩
    exact ⟨p.val, p.rest, ⟨p.lt, hp⟩, h⟩
  · rintro ⟨a, ts, ⟨hlt, hx⟩, h⟩
    exact ⟨⟨a, ts, hlt⟩, hx, h⟩

theorem reads_bind {x : Except Refusal (Parsed α n)} {f : Parsed α n → Except Refusal (Parsed β m)} {b : β}
    {rest : Tokens} : Reads (x >>= f) b rest ↔ ∃ a ts, ∃ h : Reads x a ts, Reads (f ⟨a, ts, h.lt⟩) b rest := by
  simp only [Reads, parsed_bind_eq_ok]
  constructor
  · rintro ⟨hb, a, ts, hx, h⟩
    exact ⟨a, ts, hx, hb, h⟩
  · rintro ⟨a, ts, hx, hb, h⟩
    exact ⟨hb, a, ts, hx, h⟩

theorem not_reads_refuse {cause : SyntaxError} {ts rest : Tokens} {a : α} :
    ¬ Reads (refuse cause ts : Except Refusal (Parsed α n)) a rest := by
  rintro ⟨_, h⟩
  cases ts <;> cases h

theorem Reads.unique {r : Except Refusal (Parsed α n)} {a b : α} {ts us : Tokens} (h : Reads r a ts) (h' : Reads r b us) :
    a = b ∧ ts = us := by
  obtain ⟨_, rfl⟩ := h
  exact reads_ok.1 h'

/-! ## Single tokens -/

theorem reads_expect {t : Token} {ts rest : Tokens} {s : Span} : Reads (expect t ts) s rest ↔ ts = ⟨t, s⟩ :: rest := by
  cases ts with
  | nil =>
    constructor
    · rintro ⟨_, h⟩
      cases h
    · intro h
      cases h
  | cons u ts =>
    rw [expect]
    by_cases h : u.val = t
    · rw [if_pos h, reads_ok, List.cons.injEq]
      refine and_congr_left fun _ => ⟨?_, ?_⟩
      · rintro rfl
        rw [← h]
      · rintro rfl
        rfl
    · rw [if_neg h]
      constructor
      · rintro ⟨_, hr⟩
        cases hr
      · intro hr
        rw [(List.cons.inj hr).1] at h
        exact absurd rfl h

theorem reads_expectAll : ∀ {expected : List Token} {ts rest : Tokens} {u : Unit},
    Reads (expectAll expected ts) u rest ↔ ∃ us, Fixed expected us ∧ ts = us ++ rest
  | [], ts, rest, u => by
    rw [expectAll, reads_ok]
    constructor
    · rintro ⟨-, rfl⟩
      exact ⟨[], rfl, rfl⟩
    · rintro ⟨us, hus, rfl⟩
      rw [List.map_eq_nil_iff.1 hus]
      exact ⟨rfl, rfl⟩
  | t :: expected, ts, rest, u => by
    simp only [expectAll, reads_bind, reads_pure, exists_prop, reads_expect, reads_expectAll]
    constructor
    · rintro ⟨s, _, rfl, _, _, ⟨us, hus, rfl⟩, -, rfl⟩
      exact ⟨⟨t, s⟩ :: us, congrArg (t :: ·) hus, rfl⟩
    · rintro ⟨us, hus, rfl⟩
      obtain ⟨⟨_, s⟩, us, rfl, rfl, htail⟩ := List.map_eq_cons_iff.1 hus
      exact ⟨s, us ++ rest, rfl, (), rest, ⟨us, htail, rfl⟩, trivial, rfl⟩

theorem reads_identifier {ts rest : Tokens} {x : Located Name} : Reads (identifier ts) x rest ↔ Splits Id ts x rest := by
  rw [Splits]
  constructor
  · intro h
    unfold identifier at h
    split at h
    · obtain ⟨rfl, rfl⟩ := reads_ok.1 h
      exact ⟨_, .intro, rfl⟩
    · exact absurd h not_reads_refuse
  · rintro ⟨us, hus, rfl⟩
    cases hus
    exact reads_ok.2 ⟨rfl, rfl⟩

/-! ## Declarations -/

theorem splits_of_reads_type {ts rest : Tokens} {ty : Located Ty} (h : Reads (type ts) ty rest) :
    Splits TypeName ts ty rest := by
  unfold type at h
  split at h
  · obtain ⟨rfl, rfl⟩ := reads_ok.1 h
    exact ⟨_, .boolean, rfl⟩
  · simp only [reads_bind, reads_pure, exists_prop, reads_expect] at h
    obtain ⟨sClose, _, rfl, rfl, rfl⟩ := h
    exact ⟨_, .intArray, rfl⟩
  · obtain ⟨rfl, rfl⟩ := reads_ok.1 h
    exact ⟨_, .int, rfl⟩
  · obtain ⟨rfl, rfl⟩ := reads_ok.1 h
    exact ⟨_, .object, rfl⟩
  · exact absurd h not_reads_refuse

theorem reads_type {ts rest : Tokens} {ty : Located Ty} (hnext : next? rest ≠ some .openSquare) :
    Reads (type ts) ty rest ↔ Splits TypeName ts ty rest := by
  refine ⟨splits_of_reads_type, ?_⟩
  rintro ⟨us, hus, rfl⟩
  cases hus with
  | intArray =>
    exact reads_bind.2 ⟨_, _, reads_expect.2 rfl, reads_pure.2 ⟨rfl, rfl⟩⟩
  | boolean => exact reads_ok.2 ⟨rfl, rfl⟩
  | object => exact reads_ok.2 ⟨rfl, rfl⟩
  | int =>
    rw [List.singleton_append, type]
    · exact reads_ok.2 ⟨rfl, rfl⟩
    · rintro s ts rfl
      exact hnext rfl

theorem reads_declaration {ts rest : Tokens} {d : Declaration} :
    Reads (declaration ts) d rest ↔ Splits Decl ts d rest := by
  simp only [declaration, reads_bind, reads_pure, exists_prop, reads_identifier]
  constructor
  · rintro ⟨ty, _, ht, name, rest, ⟨vs, hname, rfl⟩, rfl, rfl⟩
    obtain ⟨us, hty, rfl⟩ := splits_of_reads_type ht
    exact ⟨us ++ vs, .intro hty hname, (List.append_assoc us vs rest).symm⟩
  · rintro ⟨us, hus, rfl⟩
    cases hus with
    | @intro us vs ty name hty hname =>
      have hnext : next? (vs ++ rest) ≠ some .openSquare := by
        cases hname
        exact fun h => (by cases h)
      rw [List.append_assoc]
      exact ⟨ty, _, (reads_type hnext).2 ⟨us, hty, rfl⟩, name, rest, ⟨vs, hname, rfl⟩, rfl, rfl⟩

theorem reads_variableDeclaration {ts rest : Tokens} {d : Declaration} :
    Reads (variableDeclaration ts) d rest ↔ Splits VarDecl ts d rest := by
  simp only [variableDeclaration, reads_bind, reads_pure, exists_prop, reads_expect, reads_declaration]
  constructor
  · rintro ⟨d, _, ⟨us, hus, rfl⟩, s, rest, rfl, rfl, rfl⟩
    exact ⟨us ++ [⟨.semicolon, s⟩], .intro hus, by rw [List.append_assoc]; rfl⟩
  · rintro ⟨us, hus, rfl⟩
    cases hus with
    | @intro us d s hd =>
      rw [List.append_assoc]
      exact ⟨d, _, ⟨us, hd, rfl⟩, s, rest, rfl, rfl, rfl⟩

/-- Variable declarations are read for as long as there are any. -/
theorem variableDeclarations_sound (ts : Tokens) :
    Splits (Star VarDecl) ts (variableDeclarations ts).val (variableDeclarations ts).rest ∧
      ∀ d us, ¬ Splits VarDecl (variableDeclarations ts).rest d us := by
  rw [variableDeclarations]
  split
  · rename_i d ts₁ h₁ h
    obtain ⟨us, hus, rfl⟩ := reads_variableDeclaration.1 ⟨_, h⟩
    obtain ⟨⟨vs, hvs, hts⟩, hmore⟩ := variableDeclarations_sound ts₁
    exact ⟨⟨us ++ vs, .cons hus hvs, by rw [List.append_assoc, ← hts]⟩, hmore⟩
  · rename_i r h
    refine ⟨⟨[], .nil, rfl⟩, fun d us hd => ?_⟩
    obtain ⟨_, hd⟩ := reads_variableDeclaration.2 hd
    rw [hd] at h
    cases h
termination_by ts.length

theorem variableDeclarations_complete {us rest : Tokens} {ds : List Declaration} (h : Star VarDecl us ds)
    (hmore : ∀ d vs, ¬ Splits VarDecl rest d vs) :
    (variableDeclarations (us ++ rest)).val = ds ∧ (variableDeclarations (us ++ rest)).rest = rest := by
  induction h with
  | nil =>
    rw [variableDeclarations]
    split
    · rename_i d ts _ h
      exact absurd (reads_variableDeclaration.1 ⟨_, h⟩) (hmore d ts)
    · exact ⟨rfl, rfl⟩
  | @cons us vs d ds hd _ ih =>
    obtain ⟨_, hr⟩ := reads_variableDeclaration.2 ⟨us, hd, List.append_assoc us vs rest⟩
    rw [variableDeclarations, hr]
    exact ⟨congrArg (d :: ·) ih.1, ih.2⟩

theorem reads_moreDeclarations {ts rest : Tokens} {ds : List Declaration} (hnext : next? rest ≠ some .comma) :
    Reads (moreDeclarations ts) ds rest ↔ Splits (Commas Decl) ts ds rest := by
  unfold moreDeclarations
  split
  · rename_i s ts
    simp only [reads_bind, reads_pure, exists_prop, reads_declaration]
    constructor
    · rintro ⟨d, _, ⟨us, hd, rfl⟩, ds, rest, hds, rfl, rfl⟩
      obtain ⟨vs, hvs, rfl⟩ := (reads_moreDeclarations hnext).1 hds
      exact ⟨⟨.comma, s⟩ :: us ++ vs, .cons hd hvs, by rw [List.append_assoc]; rfl⟩
    · rintro ⟨us, hus, heq⟩
      cases hus with
      | nil => exact absurd (congrArg next? heq).symm hnext
      | @cons s' us vs d ds hd hds =>
        obtain ⟨-, rfl⟩ := List.cons.inj heq
        exact ⟨d, _, ⟨us, hd, List.append_assoc us vs rest⟩, ds, rest, (reads_moreDeclarations hnext).2 ⟨vs, hds, rfl⟩, rfl, rfl⟩
  · rename_i hcomma
    rw [reads_ok]
    constructor
    · rintro ⟨rfl, rfl⟩
      exact ⟨[], .nil, rfl⟩
    · rintro ⟨us, hus, rfl⟩
      cases hus with
      | nil => exact ⟨rfl, rfl⟩
      | cons _ _ => exact absurd rfl (hcomma _ _)
termination_by ts.length

/-- The formals of a method, which the closing parenthesis ends. -/
theorem reads_formals {ts rest : Tokens} {ds : List Declaration} (hnext : next? rest = some .closeParen) :
    Reads (formals ts) ds rest ↔ Splits (Separated Decl) ts ds rest := by
  have hcomma : next? rest ≠ some .comma := fun h => by
    rw [hnext] at h
    cases h
  unfold formals
  split
  · rename_i s ts
    rw [reads_ok]
    constructor
    · rintro ⟨rfl, rfl⟩
      exact ⟨[], .nil, rfl⟩
    · rintro ⟨us, hus, heq⟩
      cases hus with
      | nil => exact ⟨rfl, heq⟩
      | @cons us vs d ds hd hds =>
        rcases hd with ⟨hty, _⟩
        cases hty <;> cases heq
  · rename_i hclose
    simp only [reads_bind, reads_pure, exists_prop, reads_declaration]
    constructor
    · rintro ⟨d, _, ⟨us, hd, rfl⟩, ds, rest, hds, rfl, rfl⟩
      obtain ⟨vs, hvs, rfl⟩ := (reads_moreDeclarations hcomma).1 hds
      exact ⟨us ++ vs, .cons hd hvs, (List.append_assoc us vs _).symm⟩
    · rintro ⟨us, hus, rfl⟩
      cases hus with
      | nil =>
        obtain ⟨⟨_, s⟩, ts, rfl, rfl⟩ : ∃ t ts, rest = t :: ts ∧ t.val = .closeParen := by
          cases rest with
          | nil => cases hnext
          | cons t ts => exact ⟨t, ts, rfl, Option.some.inj hnext⟩
        exact absurd rfl (hclose s ts)
      | @cons us vs d ds hd hds =>
        rw [List.append_assoc]
        exact ⟨d, _, ⟨us, hd, rfl⟩, ds, rest, (reads_moreDeclarations hcomma).2 ⟨vs, hds, rfl⟩, rfl, rfl⟩

end MiniJava.Grammar
