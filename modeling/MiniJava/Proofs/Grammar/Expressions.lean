import MiniJava.Proofs.Grammar.Reading
/-!
# Reading expressions

The parser reads an operand of a layer and then goes on with whatever carries it on in the same layer, while the grammar
is recursive on the left.  That what is read is in the grammar goes by the parser's own recursion, with what was read
before as a hypothesis (`operands_sound`, `suffixes_sound`).  That the parser reads all that is in the grammar goes by
the derivation: reading its tokens comes down to going on from its expression (`reads_of_exp`).
-/
namespace MiniJava.Grammar

open Parse

/-! ## Only what the grammar yields -/

theorem operator?_eq_some {t : Token} {op : Op} (h : operator? t = some op) : Operator t op (level op) := by
  cases t <;> cases h <;> constructor

mutual

theorem operation_sound {l : Nat} {ts rest : Tokens} {e : Expr} (hl : l ≤ levels) (h : Reads (operation l ts) e rest) :
    Splits (Exp l) ts e rest := by
  rw [operation] at h
  split at h
  · rename_i hlt
    simp only [reads_bind, reads_pure, exists_prop] at h
    obtain ⟨left, ts₁, hleft, _, _, he, rfl, rfl⟩ := h
    have := hleft.lt
    obtain ⟨us, hus, rfl⟩ := operation_sound hlt hleft
    obtain ⟨vs, hvs, rfl⟩ := operands_sound hlt (.looser hus) he
    exact ⟨us ++ vs, hvs, (List.append_assoc us vs _).symm⟩
  · obtain rfl : l = levels := by omega
    exact negation_sound h
termination_by (ts.length, 3 + (levels - l))

theorem operands_sound {l : Nat} {ls ts rest : Tokens} {left e : Expr} (hl : l < levels) (hleft : Exp l ls left)
    (h : Reads (operands l left ts) e rest) : ∃ us, Exp l (ls ++ us) e ∧ ts = us ++ rest := by
  rw [operands.eq_def] at h
  split at h
  · obtain ⟨rfl, rfl⟩ := reads_ok.1 h
    exact ⟨[], by rwa [List.append_nil], rfl⟩
  · rename_i t ts
    split at h
    · rename_i op hop
      split at h
      · rename_i hlevel
        subst hlevel
        simp only [reads_bind, reads_pure, exists_prop] at h
        obtain ⟨right, ts₁, hright, _, _, he, rfl, rfl⟩ := h
        have := hright.lt
        obtain ⟨rs, hrs, rfl⟩ := operation_sound hl hright
        have hop := operator?_eq_some hop
        obtain ⟨us, hus, rfl⟩ := operands_sound hl (.binary (s := t.span) hop hleft hrs) he
        refine ⟨t :: rs ++ us, ?_, ?_⟩
        · rwa [List.append_assoc] at hus
        · rw [List.append_assoc]
          rfl
      · obtain ⟨rfl, rfl⟩ := reads_ok.1 h
        exact ⟨[], by rwa [List.append_nil], rfl⟩
    · obtain ⟨rfl, rfl⟩ := reads_ok.1 h
      exact ⟨[], by rwa [List.append_nil], rfl⟩
termination_by (ts.length, 0)

theorem negation_sound {ts rest : Tokens} {e : Expr} (h : Reads (negation ts) e rest) : Splits (Exp 4) ts e rest := by
  rw [negation.eq_def] at h
  split at h
  · rename_i s ts
    simp only [reads_bind, reads_pure, exists_prop] at h
    obtain ⟨e, _, he, rfl, rfl⟩ := h
    obtain ⟨us, hus, rfl⟩ := negation_sound he
    exact ⟨⟨.not, s⟩ :: us, .not hus, rfl⟩
  · simp only [reads_bind, reads_pure, exists_prop] at h
    obtain ⟨a, ts₁, ha, _, _, he, rfl, rfl⟩ := h
    have := ha.lt
    obtain ⟨us, hus, rfl⟩ := atom_sound ha
    obtain ⟨vs, hvs, rfl⟩ := suffixes_sound (.looser hus) he
    exact ⟨us ++ vs, .looser hvs, (List.append_assoc us vs _).symm⟩
termination_by (ts.length, 1)

theorem suffixes_sound {as ts rest : Tokens} {a e : Expr} (ha : Exp 5 as a) (h : Reads (suffixes a ts) e rest) :
    ∃ us, Exp 5 (as ++ us) e ∧ ts = us ++ rest := by
  rw [suffixes.eq_def] at h
  split at h
  · rename_i s ts
    simp only [reads_bind, reads_pure, exists_prop, reads_expect] at h
    obtain ⟨i, _, hi, sClose, ts₁, rfl, _, _, he, rfl, rfl⟩ := h
    have := hi.lt
    obtain ⟨is, his, rfl⟩ := operation_sound (Nat.zero_le _) hi
    obtain ⟨us, hus, rfl⟩ := suffixes_sound (@Exp.index s sClose _ _ _ _ ha his) he
    refine ⟨⟨.openSquare, s⟩ :: (is ++ ⟨.closeSquare, sClose⟩ :: us), ?_, ?_⟩
    · simpa only [List.append_assoc, List.cons_append, List.nil_append] using hus
    · rw [List.cons_append, List.append_assoc]
      rfl
  · rename_i s sWord ts
    simp only [reads_bind, reads_pure, exists_prop] at h
    obtain ⟨_, _, he, rfl, rfl⟩ := h
    obtain ⟨us, hus, rfl⟩ := suffixes_sound (@Exp.length s sWord _ _ ha) he
    refine ⟨⟨.period, s⟩ :: ⟨.keyword .lengthKw, sWord⟩ :: us, ?_, rfl⟩
    rwa [List.append_assoc] at hus
  · rename_i s ts _
    simp only [reads_bind, reads_pure, exists_prop, reads_expect, reads_identifier] at h
    obtain ⟨m, _, ⟨ms, hm, rfl⟩, sOpen, ts₂, rfl, args, _, hargs, sClose, ts₄, rfl, _, _, he, rfl, rfl⟩ := h
    have := hargs.lt
    obtain ⟨xs, hxs, rfl⟩ := arguments_sound hargs
    obtain ⟨us, hus, rfl⟩ := suffixes_sound (@Exp.call s sOpen sClose _ _ _ _ _ _ ha hm hxs) he
    refine ⟨⟨.period, s⟩ :: (ms ++ ⟨.openParen, sOpen⟩ :: (xs ++ ⟨.closeParen, sClose⟩ :: us)), ?_, ?_⟩
    · simpa only [List.append_assoc, List.cons_append, List.nil_append] using hus
    · simp only [List.append_assoc, List.cons_append]
  · obtain ⟨rfl, rfl⟩ := reads_ok.1 h
    exact ⟨[], by rwa [List.append_nil], rfl⟩
termination_by (ts.length, 0)

theorem arguments_sound {ts rest : Tokens} {es : List Expr} (h : Reads (arguments ts) es rest) :
    Splits (Separated (Exp 0)) ts es rest := by
  rw [arguments.eq_def] at h
  split at h
  · obtain ⟨rfl, rfl⟩ := reads_ok.1 h
    exact ⟨[], .nil, rfl⟩
  · simp only [reads_bind, reads_pure, exists_prop] at h
    obtain ⟨e, _, he, es, rest, hes, rfl, rfl⟩ := h
    have := he.lt
    obtain ⟨us, hus, rfl⟩ := operation_sound (Nat.zero_le _) he
    obtain ⟨vs, hvs, rfl⟩ := moreArguments_sound hes
    exact ⟨us ++ vs, .cons hus hvs, (List.append_assoc us vs rest).symm⟩
termination_by (ts.length, 4 + levels)

theorem moreArguments_sound {ts rest : Tokens} {es : List Expr} (h : Reads (moreArguments ts) es rest) :
    Splits (Commas (Exp 0)) ts es rest := by
  rw [moreArguments.eq_def] at h
  split at h
  · rename_i s ts
    simp only [reads_bind, reads_pure, exists_prop] at h
    obtain ⟨e, _, he, es, rest, hes, rfl, rfl⟩ := h
    have := he.lt
    obtain ⟨us, hus, rfl⟩ := operation_sound (Nat.zero_le _) he
    obtain ⟨vs, hvs, rfl⟩ := moreArguments_sound hes
    exact ⟨⟨.comma, s⟩ :: us ++ vs, .cons hus hvs, by rw [List.append_assoc]; rfl⟩
  · obtain ⟨rfl, rfl⟩ := reads_ok.1 h
    exact ⟨[], .nil, rfl⟩
termination_by (ts.length, 0)

theorem atom_sound {ts rest : Tokens} {e : Expr} (h : Reads (atom ts) e rest) : Splits (Exp 6) ts e rest := by
  rw [atom.eq_def] at h
  split at h
  · obtain ⟨rfl, rfl⟩ := reads_ok.1 h
    exact ⟨_, .literal, rfl⟩
  · obtain ⟨rfl, rfl⟩ := reads_ok.1 h
    exact ⟨_, .true, rfl⟩
  · obtain ⟨rfl, rfl⟩ := reads_ok.1 h
    exact ⟨_, .false, rfl⟩
  · obtain ⟨rfl, rfl⟩ := reads_ok.1 h
    exact ⟨_, .self, rfl⟩
  · obtain ⟨rfl, rfl⟩ := reads_ok.1 h
    exact ⟨_, .read, rfl⟩
  · rename_i s ts
    simp only [reads_bind, reads_pure, exists_prop, reads_expect] at h
    obtain ⟨e, _, he, sClose, _, rfl, rfl, rfl⟩ := h
    obtain ⟨us, hus, rfl⟩ := operation_sound (Nat.zero_le _) he
    exact ⟨⟨.openParen, s⟩ :: us ++ [⟨.closeParen, sClose⟩], .paren hus, by rw [List.append_assoc]; rfl⟩
  · rename_i s sInt ts
    simp only [reads_bind, reads_pure, exists_prop, reads_expect] at h
    obtain ⟨sOpen, _, rfl, n, _, hn, sClose, _, rfl, rfl, rfl⟩ := h
    obtain ⟨us, hus, rfl⟩ := operation_sound (Nat.zero_le _) hn
    exact ⟨_, .newArray hus, by rw [List.append_assoc]; rfl⟩
  · rename_i s ts _
    simp only [reads_bind, reads_pure, exists_prop, reads_expect, reads_identifier] at h
    obtain ⟨c, _, ⟨us, hus, rfl⟩, sOpen, _, rfl, sClose, _, rfl, rfl, rfl⟩ := h
    exact ⟨_, .newObject hus, by rw [List.append_assoc]; rfl⟩
  · exact absurd h not_reads_refuse
termination_by (ts.length, 0)

end

/-! ## All that the grammar yields -/

/-- The layer in which a token that follows an expression carries it on. -/
def carriesOn? : Token → Option Nat
  | .and => some 0
  | .less => some 1
  | .plus | .minus => some 2
  | .times => some 3
  | .openSquare | .period => some 5
  | _ => none

/-- No token follows that carries an expression on in layer `k` or a tighter one. -/
def Ends (k : Nat) (ts : Tokens) : Prop := ∀ t l, next? ts = some t → carriesOn? t = some l → l < k

theorem Ends.mono {k k' : Nat} {ts : Tokens} (h : Ends k ts) (hk : k ≤ k') : Ends k' ts :=
  fun t l ht hl => Nat.lt_of_lt_of_le (h t l ht hl) hk

theorem ends_cons {k : Nat} {t : Located Token} {ts : Tokens} :
    Ends k (t :: ts) ↔ ∀ l, carriesOn? t.val = some l → l < k := by
  constructor
  · exact fun h l hl => h t.val l rfl hl
  · intro h u l hu hl
    obtain rfl := Option.some.inj hu
    exact h l hl

theorem ends_of_none {k : Nat} {t : Located Token} {ts : Tokens} (h : carriesOn? t.val = none) : Ends k (t :: ts) :=
  ends_cons.2 fun l hl => by rw [h] at hl; cases hl

theorem Commas.ends {α : Type} {R : Tokens → α → Prop} {us rest : Tokens} {as : List α} {k : Nat} (h : Commas R us as)
    (hrest : Ends k rest) : Ends k (us ++ rest) := by
  cases h with
  | nil => exact hrest
  | cons _ _ => exact ends_of_none rfl

theorem Operator.carriesOn {t : Token} {op : Op} {k : Nat} (h : Operator t op k) : carriesOn? t = some k := by
  cases h <;> rfl

theorem Operator.eq_some {t : Token} {op : Op} {k : Nat} (h : Operator t op k) : operator? t = some op ∧ level op = k := by
  cases h <;> exact ⟨rfl, rfl⟩

theorem Operator.lt {t : Token} {op : Op} {k : Nat} (h : Operator t op k) : k < levels := by
  cases h <;> decide

theorem shorter_of_shorter {ts us vs : Tokens} (hu : us.length < ts.length) (hv : vs.length < us.length + 1) :
    vs.length < ts.length := by
  omega

/-- Reads an expression of layer `k`. -/
def layer (k : Nat) (ts : Tokens) : Except Refusal (Parsed Expr ts.length) :=
  if k ≤ levels then operation k ts
  else if k = 5 then do
    let ⟨a, ts₁, h₁⟩ ← atom ts
    let ⟨e, ts₂, h₂⟩ ← suffixes a ts₁
    return ⟨e, ts₂, shorter_of_shorter h₁ h₂⟩
  else atom ts

theorem lt_length_succ (ts : Tokens) : ts.length < ts.length + 1 := Nat.lt_succ_self ts.length

/-- Goes on in layer `k` from an expression of this layer. -/
def goOn (k : Nat) (e : Expr) (ts : Tokens) : Except Refusal (Parsed Expr (ts.length + 1)) :=
  if k < levels then operands k e ts else if k = 5 then suffixes e ts else .ok ⟨e, ts, lt_length_succ ts⟩

theorem reads_goOn {k : Nat} {e : Expr} {ts : Tokens} (h : Ends k ts) : Reads (goOn k e ts) e ts := by
  unfold goOn
  split
  · rw [operands.eq_def]
    split
    · exact reads_ok.2 ⟨rfl, rfl⟩
    · rename_i t ts
      split
      · rename_i op hop
        have hne : level op ≠ k := fun hk =>
          absurd (ends_cons.1 h _ (operator?_eq_some hop).carriesOn) (hk ▸ Nat.lt_irrefl _)
        rw [if_neg hne]
        exact reads_ok.2 ⟨rfl, rfl⟩
      · exact reads_ok.2 ⟨rfl, rfl⟩
  · split
    · rename_i hk
      subst hk
      rw [suffixes.eq_def]
      split
      · exact absurd (ends_cons.1 h 5 rfl) (Nat.lt_irrefl 5)
      · exact absurd (ends_cons.1 h 5 rfl) (Nat.lt_irrefl 5)
      · exact absurd (ends_cons.1 h 5 rfl) (Nat.lt_irrefl 5)
      · exact reads_ok.2 ⟨rfl, rfl⟩
    · exact reads_ok.2 ⟨rfl, rfl⟩

/-- An expression of the next layer and what carries it on make an expression of a layer. -/
theorem reads_layer {k : Nat} {ts us rest : Tokens} {e e' : Expr} (hk : k ≤ 5) (hnot : k = 4 → next? ts ≠ some .not)
    (h : Reads (layer (k + 1) ts) e us) (hon : Reads (goOn k e us) e' rest) : Reads (layer k ts) e' rest := by
  obtain hk | rfl | rfl : k < levels ∨ k = 4 ∨ k = 5 := by
    simp only [levels]
    omega
  · rw [goOn, if_pos hk] at hon
    rw [layer, if_pos (show k + 1 ≤ levels from hk)] at h
    rw [layer, if_pos (Nat.le_of_lt hk), operation, if_pos hk]
    simp only [reads_bind, reads_pure, exists_prop]
    exact ⟨e, us, h, e', rest, hon, rfl, rfl⟩
  · obtain ⟨rfl, rfl⟩ := reads_ok.1 hon
    show Reads (operation 4 ts) e us
    rw [operation, if_neg (by decide), negation.eq_def]
    split
    · exact absurd rfl (hnot rfl)
    · exact h
  · show Reads (atom ts >>= _) e' rest
    simp only [reads_bind, reads_pure, exists_prop]
    exact ⟨e, us, h, e', rest, hon, rfl, rfl⟩

theorem Exp.le : ∀ {k : Nat} {ts : Tokens} {e : Expr}, Exp k ts e → k ≤ 6
  | _, _, _, .looser h => Nat.le_of_succ_le h.le
  | _, _, _, .binary hop _ _ => Nat.le_of_lt (Nat.lt_of_lt_of_le hop.lt (by decide))
  | _, _, _, .not _ => by decide
  | _, _, _, .index _ _ | _, _, _, .length _ | _, _, _, .call _ _ _ => by decide
  | _, _, _, .literal | _, _, _, .true | _, _, _, .false | _, _, _, .self | _, _, _, .read | _, _, _, .newArray _
  | _, _, _, .newObject _ | _, _, _, .paren _ => Nat.le_refl 6

/-- How an expression begins: not with a closing parenthesis, and in the tight layers not with a negation. -/
theorem Exp.head : ∀ {k : Nat} {ts : Tokens} {e : Expr}, Exp k ts e →
    ∃ t us, ts = t :: us ∧ t.val ≠ .closeParen ∧ (5 ≤ k → t.val ≠ .not)
  | _, _, _, .looser h => by
    obtain ⟨t, us, rfl, hclose, hnot⟩ := h.head
    exact ⟨t, us, rfl, hclose, fun hk => hnot (Nat.le_succ_of_le hk)⟩
  | _, _, _, .binary hop hl _ => by
    obtain ⟨t, us, rfl, hclose, -⟩ := hl.head
    exact ⟨t, _, rfl, hclose, fun hk => absurd (Nat.lt_of_le_of_lt hk hop.lt) (by decide)⟩
  | _, _, _, .not _ => ⟨_, _, rfl, nofun, by omega⟩
  | _, _, _, .index h _ | _, _, _, .length h | _, _, _, .call h _ _ => by
    obtain ⟨t, us, rfl, hclose, hnot⟩ := h.head
    exact ⟨t, _, rfl, hclose, hnot⟩
  | _, _, _, .literal | _, _, _, .true | _, _, _, .false | _, _, _, .self | _, _, _, .read | _, _, _, .newArray _
  | _, _, _, .newObject _ | _, _, _, .paren _ => ⟨_, _, rfl, nofun, fun _ => nofun⟩

mutual

/-- **Reading the tokens of an expression comes down to going on from it.** -/
theorem reads_of_exp : ∀ {k : Nat} {us : Tokens} {e : Expr}, Exp k us e → ∀ {rest rest' : Tokens} {e' : Expr},
    Ends (k + 1) rest → Reads (goOn k e rest) e' rest' → Reads (layer k (us ++ rest)) e' rest'
  | k, us, e, .looser h, rest, rest', e', hends, hon => by
    have hread : Reads (layer (k + 1) (us ++ rest)) e rest :=
      reads_of_exp h (hends.mono (Nat.le_succ _)) (reads_goOn hends)
    refine reads_layer (Nat.le_of_succ_le_succ h.le) (fun hk => ?_) hread hon
    obtain ⟨t, us, rfl, -, hnot⟩ := h.head
    exact fun hnext => hnot (by omega) (Option.some.inj hnext)
  | k, _, _, @Exp.binary _ t op s ls rs l r hop hl hr, rest, rest', e', hends, hon => by
    have hright : Reads (layer (k + 1) (rs ++ rest)) r rest :=
      reads_of_exp hr (hends.mono (Nat.le_succ _)) (reads_goOn hends)
    obtain ⟨hsome, hlevel⟩ := hop.eq_some
    rw [List.append_assoc]
    refine reads_of_exp hl (ends_cons.2 fun l hl => ?_) ?_
    · rw [hop.carriesOn] at hl
      cases hl
      exact Nat.lt_succ_self k
    · rw [goOn, if_pos hop.lt] at hon ⊢
      rw [layer, if_pos (show k + 1 ≤ levels from hop.lt)] at hright
      rw [List.cons_append, operands.eq_def]
      simp only [hsome, hlevel, if_true, reads_bind, reads_pure, exists_prop]
      exact ⟨r, rest, hright, e', rest', hon, rfl, rfl⟩
  | _, _, _, @Exp.not s ts e h, rest, rest', e', hends, hon => by
    obtain ⟨rfl, rfl⟩ := reads_ok.1 hon
    have hread : Reads (operation 4 (ts ++ rest)) e rest := reads_of_exp h hends (reads_ok.2 ⟨rfl, rfl⟩)
    rw [operation, if_neg (by decide)] at hread
    show Reads (operation 4 (⟨.not, s⟩ :: (ts ++ rest))) _ rest
    rw [operation, if_neg (by decide), negation.eq_def]
    simp only [reads_bind, reads_pure, exists_prop]
    exact ⟨e, rest, hread, rfl, rfl⟩
  | _, _, _, @Exp.index sOpen sClose as is a i ha hi, rest, rest', e', hends, hon => by
    have hindex : Reads (operation 0 (is ++ ⟨.closeSquare, sClose⟩ :: rest)) i (⟨.closeSquare, sClose⟩ :: rest) :=
      reads_of_exp hi (ends_of_none rfl) (reads_goOn (ends_of_none rfl))
    rw [List.append_assoc, List.append_assoc]
    refine reads_of_exp ha (ends_cons.2 fun l hl => ?_) ?_
    · cases hl
      decide
    · show Reads (suffixes a _) e' rest'
      rw [suffixes.eq_def]
      simp only [List.cons_append, reads_bind, reads_pure, exists_prop, reads_expect]
      exact ⟨i, _, hindex, sClose, rest, rfl, e', rest', hon, rfl, rfl⟩
  | _, _, _, @Exp.length s sWord as a ha, rest, rest', e', hends, hon => by
    rw [List.append_assoc]
    refine reads_of_exp ha (ends_cons.2 fun l hl => ?_) ?_
    · cases hl
      decide
    · show Reads (suffixes a _) e' rest'
      rw [suffixes.eq_def]
      simp only [List.cons_append, List.nil_append, reads_bind, reads_pure, exists_prop]
      exact ⟨e', rest', hon, rfl, rfl⟩
  | _, _, _, @Exp.call s sOpen sClose rs ms as r m es hr hm hes, rest, rest', e', hends, hon => by
    have hargs : Reads (arguments (as ++ ⟨.closeParen, sClose⟩ :: rest)) es (⟨.closeParen, sClose⟩ :: rest) :=
      reads_of_separated hes rfl
    rw [List.append_assoc, List.append_assoc, List.append_assoc]
    refine reads_of_exp hr (ends_cons.2 fun l hl => ?_) ?_
    · cases hl
      decide
    · show Reads (suffixes r _) e' rest'
      cases hm with
      | @intro x sName =>
        rw [suffixes.eq_def]
        simp only [List.cons_append, List.nil_append, reads_bind, reads_pure, exists_prop, reads_expect,
          reads_identifier]
        exact ⟨_, _, ⟨_, .intro, rfl⟩, sOpen, _, rfl, es, _, hargs, sClose, rest, rfl, e', rest', hon, rfl, rfl⟩
  | _, _, _, .literal, _, _, _, _, hon | _, _, _, .true, _, _, _, _, hon | _, _, _, .false, _, _, _, _, hon
  | _, _, _, .self, _, _, _, _, hon | _, _, _, .read, _, _, _, _, hon => by
    obtain ⟨rfl, rfl⟩ := reads_ok.1 hon
    show Reads (atom _) _ _
    rw [List.singleton_append, atom.eq_def]
    exact reads_ok.2 ⟨rfl, rfl⟩
  | _, _, _, @Exp.newArray s sInt sOpen sClose ns n h, rest, rest', e', hends, hon => by
    obtain ⟨rfl, rfl⟩ := reads_ok.1 hon
    have hread : Reads (operation 0 (ns ++ ⟨.closeSquare, sClose⟩ :: rest)) n (⟨.closeSquare, sClose⟩ :: rest) :=
      reads_of_exp h (ends_of_none rfl) (reads_goOn (ends_of_none rfl))
    show Reads (atom _) _ _
    rw [List.append_assoc, atom.eq_def]
    simp only [List.cons_append, List.nil_append, reads_bind, reads_pure, exists_prop, reads_expect]
    exact ⟨sOpen, _, rfl, n, _, hread, sClose, rest, rfl, rfl, rfl⟩
  | _, _, _, @Exp.newObject s sOpen sClose cs c h, rest, rest', e', hends, hon => by
    obtain ⟨rfl, rfl⟩ := reads_ok.1 hon
    show Reads (atom _) _ _
    cases h with
    | @intro x sName =>
      rw [List.append_assoc, atom.eq_def]
      simp only [List.cons_append, List.nil_append, reads_bind, reads_pure, exists_prop, reads_expect, reads_identifier]
      exact ⟨_, _, ⟨_, .intro, rfl⟩, sOpen, _, rfl, sClose, rest, rfl, rfl, rfl⟩
  | _, _, _, @Exp.paren sOpen sClose ts e h, rest, rest', e', hends, hon => by
    obtain ⟨rfl, rfl⟩ := reads_ok.1 hon
    have hread : Reads (operation 0 (ts ++ ⟨.closeParen, sClose⟩ :: rest)) e (⟨.closeParen, sClose⟩ :: rest) :=
      reads_of_exp h (ends_of_none rfl) (reads_goOn (ends_of_none rfl))
    show Reads (atom _) _ _
    rw [List.append_assoc, atom.eq_def]
    simp only [List.cons_append, List.nil_append, reads_bind, reads_pure, exists_prop, reads_expect]
    exact ⟨e, _, hread, sClose, rest, rfl, rfl, rfl⟩

theorem reads_of_separated : ∀ {us : Tokens} {es : List Expr}, Separated (Exp 0) us es → ∀ {rest : Tokens},
    next? rest = some .closeParen → Reads (arguments (us ++ rest)) es rest
  | _, _, .nil, rest, hrest => by
    obtain ⟨⟨_, s⟩, ts, rfl, rfl⟩ : ∃ t ts, rest = t :: ts ∧ t.val = .closeParen := by
      cases rest with
      | nil => cases hrest
      | cons t ts => exact ⟨t, ts, rfl, Option.some.inj hrest⟩
    rw [List.nil_append, arguments.eq_def]
    exact reads_ok.2 ⟨rfl, rfl⟩
  | _, _, @Separated.cons _ _ ts us e es he hes, rest, hrest => by
    have hends : ∀ k, Ends k (us ++ rest) := fun k => hes.ends fun t l ht hl => by
      rw [hrest] at ht
      cases ht
      cases hl
    have hread : Reads (operation 0 (ts ++ (us ++ rest))) e (us ++ rest) :=
      reads_of_exp he (hends 1) (reads_goOn (hends 0))
    obtain ⟨t, ts', rfl, hclose, -⟩ := he.head
    rw [List.append_assoc]
    generalize hts : t :: ts' ++ (us ++ rest) = ws at hread ⊢
    rw [arguments.eq_def]
    split
    · exact absurd (congrArg Located.val (List.cons.inj hts).1) hclose
    · simp only [reads_bind, reads_pure, exists_prop]
      exact ⟨e, _, hread, es, rest, reads_of_commas hes hrest, rfl, rfl⟩

theorem reads_of_commas : ∀ {us : Tokens} {es : List Expr}, Commas (Exp 0) us es → ∀ {rest : Tokens},
    next? rest = some .closeParen → Reads (moreArguments (us ++ rest)) es rest
  | _, _, .nil, rest, hrest => by
    rw [List.nil_append, moreArguments.eq_def]
    split
    · cases hrest
    · exact reads_ok.2 ⟨rfl, rfl⟩
  | _, _, @Commas.cons _ _ s ts us e es he hes, rest, hrest => by
    have hends : ∀ k, Ends k (us ++ rest) := fun k => hes.ends fun t l ht hl => by
      rw [hrest] at ht
      cases ht
      cases hl
    have hread : Reads (operation 0 (ts ++ (us ++ rest))) e (us ++ rest) :=
      reads_of_exp he (hends 1) (reads_goOn (hends 0))
    rw [List.cons_append, List.cons_append, List.append_assoc, moreArguments.eq_def]
    simp only [reads_bind, reads_pure, exists_prop]
    exact ⟨e, _, hread, es, rest, reads_of_commas hes hrest, rfl, rfl⟩

end

/-- **An expression is read exactly where the grammar has one**, if nothing follows that could carry it on. -/
theorem reads_expression {ts rest : Tokens} {e : Expr} (hends : Ends 0 rest) :
    Reads (expression ts) e rest ↔ Splits (Exp 0) ts e rest := by
  constructor
  · exact operation_sound (Nat.zero_le levels)
  · rintro ⟨us, hus, rfl⟩
    exact reads_of_exp hus (hends.mono (Nat.zero_le 1)) (reads_goOn hends)

end MiniJava.Grammar
