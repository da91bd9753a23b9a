import MiniJava.Proofs.CText.Pieces
import MiniJava.Proofs.CText.Statements
/-!
# The trees of a unit's code

What an expression or a statement is in C (`CExpr.tree`, `CStmt.tree`).  Objects and arrays are made by calls of the
runtime, the length of an array stands in the header in front of its elements, and a call of a method first assigns the
receiver to its temporary.  The tokens yield these trees (`CExpr.exp`, `CStmt.statement`): parentheses are where the layers
of C ask for them.

Different code has different trees (`CExpr.Readable.tree_inj`, `CStmt.Readable.tree_inj`).
-/
namespace MiniJava

open CText

open CToken (word number mark)

namespace CText

/-! ## From layer to layer -/

theorem Exp.le {k : Nat} {ts : List CToken} {e : CTree} (h : Exp k ts e) : k ≤ 16 := by
  cases h with
  | looser hk _ => exact Nat.le_of_lt hk
  | binary hop _ _ => exact Nat.le_of_lt (Nat.lt_of_lt_of_le (layer_of_operator hop).1 (by decide))
  | _ => decide

/-- What is of one layer is of every looser one. -/
theorem Exp.loosen {j k : Nat} {ts : List CToken} {e : CTree} (h : Exp k ts e) (hjk : j ≤ k) : Exp j ts e := by
  induction hjk with
  | refl => exact h
  | step _ ih => exact ih (.looser h.le h)

theorem Exp.enclosed {k : Nat} {ts : List CToken} {e : CTree} (h : Exp k ts e) : Exp 16 (mark "(" :: ts ++ [mark ")"]) e :=
  .paren (h.loosen (Nat.zero_le k))

/-- A word with an underscore is none of the grammar's. -/
theorem exp_name {x : String} (h : '_' ∈ x.toList) : Exp 16 [word x] (.name x) := by
  have hwords : ∀ w ∈ grammarWords, '_' ∉ w.toList := by decide
  exact .name fun hx => hwords x hx h

end CText

theorem Op.sign_ne_comma (op : Op) : op.sign ≠ "," := by cases op <;> decide

theorem Op.sign_injective : Function.Injective Op.sign := by
  intro op op' h
  cases op <;> cases op' <;> first | rfl | exact absurd h (by decide)

/-! ## Trees -/

def Storage.ctype : Storage → CType
  | int => ⟨none, 0⟩
  | intArray => ⟨none, 1⟩
  | object c => ⟨some (CUnit.globalPart c), 1⟩

theorem Storage.ctype_injective : Function.Injective Storage.ctype := by
  intro s s' h
  cases s <;> cases s' <;> simp only [Storage.ctype, CType.mk.injEq, reduceCtorEq, Option.some.injEq, and_true, false_and,
    true_and, Nat.zero_ne_one, Nat.one_ne_zero] at h
  · rfl
  · rfl
  · rw [CUnit.globalPart_injective h]

namespace CUnit

def Place.tree : Place → CTree
  | frame x => .member (.name "__frame") (memberName x)
  | formal x => .name (memberName x)
  | field x => .arrow (.name "this") (memberName x)

mutual

/-- **The tree of an expression.** -/
def CExpr.tree : CExpr → CTree
  | .int v => .number v.toNat
  | .self => .name "this"
  | .read place => place.tree
  | .binary left op right => .binary op.sign left.tree right.tree
  | .not e => .unary "!" e.tree
  | .index array i => .index array.tree i.tree
  | .length array =>
    .cast ⟨none, 0⟩ (.arrow (.binary "-" (.cast ⟨some "Tiger_object_header", 1⟩ array.tree) (.number 1)) "length")
  | .call temp receiver method arguments =>
    let t := .name (tempName temp)
    .binary "," (.assign t receiver.tree)
      (.call (.arrow (.arrow t "vptr") (memberName method)) (t :: argumentTrees arguments))
  | .newArray n => .cast ⟨none, 1⟩ (.call (.name "Tiger_new_array") [n.tree])
  | .newObject c =>
    .cast (Storage.object c).ctype
      (.call (.name "Tiger_new") [.unary "&" (.name (vtableSymbol c)), .name (sizeSymbol c)])
  | .cast s e => .cast s.ctype e.tree

def argumentTrees : List CExpr → List CTree
  | [] => []
  | e :: es => e.tree :: argumentTrees es

end

mutual

/-- **The tree of a statement.** -/
def CStmt.tree : CStmt → CStmtTree
  | .block body => .block (stmtTrees body)
  | .ite condition yes no => .ite condition.tree yes.tree no.tree
  | .loop condition body => .loop condition.tree body.tree
  | .print e => .expression (.call (.name "System_out_println") [e.tree])
  | .assign place e => .expression (.assign place.tree e.tree)
  | .store place i e => .expression (.assign (.index place.tree i.tree) e.tree)

def stmtTrees : List CStmt → List CStmtTree
  | [] => []
  | s :: ss => s.tree :: stmtTrees ss

end

/-! ## What the tokens yield -/

theorem mem_memberName (x : Name) : '_' ∈ (memberName x).toList := by
  rw [toList_memberName]
  exact List.mem_cons_self

theorem mem_tempName (n : Nat) : '_' ∈ (tempName n).toList := by
  rw [toList_tempName]
  exact List.mem_cons_self

theorem mem_append (x : String) {suffix : String} (h : '_' ∈ suffix.toList) : '_' ∈ (x ++ suffix).toList := by
  rw [String.toList_append]
  exact List.mem_append_right _ h

theorem tokensOf_storagePieces (s : Storage) : tokensOf s.pieces = s.ctype.tokens := by
  cases s <;> rfl

theorem Place.exp (place : Place) : Exp 15 (tokensOf place.pieces) place.tree := by
  cases place with
  | frame x => exact .member (Exp.loosen (.name (by decide)) (by decide))
  | formal x => exact (exp_name (mem_memberName x)).loosen (by decide)
  | field x => exact .arrow (Exp.loosen (.name (by decide)) (by decide))

theorem one_le_precedence (e : CExpr) : 1 ≤ precedence e := by
  cases e with
  | binary l op r => cases op <;> exact Nat.le_of_ble_eq_true rfl
  | _ => exact Nat.le_of_ble_eq_true rfl

theorem mem_operators (l : CExpr) (op : Op) (r : CExpr) : (op.sign, precedence (.binary l op r)) ∈ operators := by
  have hlevels : ∀ o ∈ [(Op.and, 4), (.less, 9), (.add, 11), (.sub, 11), (.mul, 12)],
      (Op.sign o.1, o.2) ∈ operators := by decide
  cases op <;> exact hlevels (_, _) (by decide)

/-- **An operand is of the layer that it stands in**, with parentheses if it is of a looser one by itself. -/
theorem exp_operandPieces {e : CExpr} {least : Nat} (hleast : least ≤ 15)
    (h : ∀ {k : Nat}, k ≤ precedence e → k ≤ 15 → Exp k (tokensOf e.pieces) e.tree) :
    Exp least (tokensOf (operandPieces least e e.pieces)) e.tree := by
  rw [operandPieces]
  split
  · have hparen := (h (Nat.zero_le _) (by decide)).enclosed.loosen (Nat.le_succ_of_le hleast)
    rw [← List.singleton_append, tokensOf_append, tokensOf_append]
    exact hparen
  · rename_i hle
    exact h (Nat.le_of_not_lt hle) hleast

/-- What is in parentheses itself is of every layer. -/
theorem exp_of_enclosed {ts us : List CToken} {e : CTree} {k l : Nat} (h : Exp l us e) (hk : k ≤ 15)
    (hts : mark "(" :: us ++ [mark ")"] = ts) : Exp k ts e :=
  hts ▸ h.enclosed.loosen (Nat.le_succ_of_le hk)

mutual

/-- **The tokens of an expression yield its tree**, in every layer up to that of its outermost operator. -/
theorem CExpr.exp : ∀ (e : CExpr) {k : Nat}, k ≤ precedence e → k ≤ 15 → Exp k (tokensOf e.pieces) e.tree
  | .int _, _, _, hk => Exp.number.loosen (Nat.le_succ_of_le hk)
  | .self, _, _, hk => Exp.loosen (.name (by decide)) (Nat.le_succ_of_le hk)
  | .read place, _, _, hk => place.exp.loosen hk
  | .binary l op r, k, hk, _ => by
    have hlayer := (layer_of_operator (mem_operators l op r)).1
    have hleft := exp_operandPieces (Nat.le_trans (Nat.le_of_lt hlayer) (by decide)) l.exp
    have hright := exp_operandPieces (Nat.le_trans hlayer (by decide)) r.exp
    have hbinary := Exp.binary (mem_operators l op r) hleft hright
    rw [CExpr.pieces, tokensOf_append, tokensOf_append]
    exact hbinary.loosen hk
  | .not e, k, hk, _ =>
    Exp.loosen (.unary (by decide) ((exp_operandPieces (by decide) e.exp).loosen (by decide))) hk
  | .index a i, k, hk, _ => by
    have harray := exp_operandPieces (Nat.le_refl 15) a.exp
    have hindex := Exp.index harray (i.exp (Nat.zero_le _) (by decide))
    rw [CExpr.pieces, tokensOf_append, tokensOf_append, tokensOf_append]
    rw [List.append_assoc] at hindex
    exact hindex.loosen hk
  | .length a, k, _, hk => by
    have harray := (a.exp (Nat.zero_le _) (by decide)).enclosed
    have hheader := @Exp.cast ⟨some "Tiger_object_header", 1⟩ _ _ (harray.loosen (by decide))
    have hdifference := @Exp.binary 11 "-" _ _ _ _ (by decide) (hheader.enclosed.loosen (by decide))
      ((@Exp.number 1).loosen (by decide))
    have hlength := @Exp.arrow _ _ "length" (hdifference.enclosed.loosen (by decide))
    have hcast := @Exp.cast ⟨none, 0⟩ _ _ (hlength.loosen (by decide))
    refine exp_of_enclosed hcast hk ?_
    rw [CExpr.pieces, tokensOf_append, tokensOf_append]
    simp only [List.append_assoc, List.cons_append]
    rfl
  | .call n r m es, k, _, hk => by
    have htemp := exp_name (mem_tempName n)
    have hassign := Exp.assign (htemp.loosen (by decide)) (r.exp (one_le_precedence r) (by decide))
    have hmethod := @Exp.arrow _ _ (memberName m) (@Exp.arrow _ _ "vptr" (htemp.loosen (by decide)))
    have hcall := Exp.call hmethod (.some (argumentList_argumentsPieces es (htemp.loosen (by decide))))
    have hboth := @Exp.binary 0 "," _ _ _ _ (by decide) (hassign.loosen (by decide)) (hcall.loosen (by decide))
    refine exp_of_enclosed hboth hk ?_
    rw [CExpr.pieces, tokensOf_append, tokensOf_append, tokensOf_append, tokensOf_append]
    simp only [List.append_assoc, List.cons_append]
    rfl
  | .newArray e, k, _, hk => by
    have hmake : Exp 15 [word "Tiger_new_array"] (.name "Tiger_new_array") := Exp.loosen (.name (by decide)) (by decide)
    have hcall := Exp.call hmake (.some (.last (e.exp (one_le_precedence e) (by decide))))
    have hcast := @Exp.cast ⟨none, 1⟩ _ _ (hcall.loosen (by decide))
    refine exp_of_enclosed hcast hk ?_
    rw [CExpr.pieces, tokensOf_append, tokensOf_append]
    simp only [List.append_assoc, List.cons_append]
    rfl
  | .newObject c, k, _, hk => by
    have hmake : Exp 15 [word "Tiger_new"] (.name "Tiger_new") := Exp.loosen (.name (by decide)) (by decide)
    have htable : Exp 16 [word (vtableSymbol c)] _ := exp_name (mem_append _ (by decide))
    have hsize : Exp 16 [word (sizeSymbol c)] _ := exp_name (mem_append _ (by decide))
    have haddress := @Exp.unary "&" _ _ (by decide) (htable.loosen (by decide))
    have hcall := Exp.call hmake (.some (.cons (haddress.loosen (by decide)) (.last (hsize.loosen (by decide)))))
    have hcast := @Exp.cast (Storage.object c).ctype _ _ (hcall.enclosed.loosen (by decide))
    exact exp_of_enclosed hcast hk rfl
  | .cast s e, k, _, hk => by
    have hcast := @Exp.cast s.ctype _ _ ((e.exp (Nat.zero_le _) (by decide)).enclosed.loosen (by decide))
    refine exp_of_enclosed hcast hk ?_
    rw [CExpr.pieces, tokensOf_append, tokensOf_append, tokensOf_append, tokensOf_append, tokensOf_storagePieces]
    simp only [List.append_assoc, List.cons_append]
    rfl
termination_by structural e => e

/-- Arguments behind a first one. -/
theorem argumentList_argumentsPieces : ∀ (es : List CExpr) {ts : List CToken} {t : CTree}, Exp 1 ts t →
    ArgumentList (ts ++ tokensOf (argumentsPieces es)) (t :: argumentTrees es)
  | [], ts, _, h => by
    have hlast := ArgumentList.last h
    rwa [← List.append_nil ts] at hlast
  | e :: es, _, _, h => by
    have hrest := argumentList_argumentsPieces es (e.exp (one_le_precedence e) (by decide))
    rw [argumentsPieces, tokensOf_append, tokensOf_append]
    exact .cons h hrest
termination_by structural es => es

end

theorem tokensOf_linePieces (indent : Nat) (ps : List Piece) : tokensOf (linePieces indent ps) = tokensOf ps := by
  have hblanks : tokensOf (List.replicate indent Piece.blank) = [] := by
    induction indent with
    | zero => rfl
    | succ n ih => exact ih
  rw [linePieces, tokensOf_append, tokensOf_append, hblanks]
  exact List.append_nil _

/-- An assignment as a statement. -/
theorem statement_assign {ls rs : List CToken} {l r : CTree} (hl : Exp 15 ls l) (hr : Exp 1 rs r) :
    Statement true (ls ++ mark "=" :: rs ++ [mark ";"]) (.expression (.assign l r)) :=
  .expression ((Exp.assign (hl.loosen (by decide)) hr).loosen (by decide))

mutual

/-- **The tokens of a statement yield its tree**, and no `else` can go on from it. -/
theorem CStmt.statement : ∀ (s : CStmt) (indent : Nat), Statement true (tokensOf (s.pieces indent)) s.tree
  | .block body, indent => by
    have hblock := Statement.block (statements_stmtsPieces body (indent + indentStep))
    rw [CStmt.pieces, tokensOf_append, tokensOf_append, tokensOf_linePieces, tokensOf_linePieces]
    exact hblock
  | .ite condition yes no, indent => by
    have hcondition := condition.exp (Nat.zero_le _) (by decide)
    have hite := Statement.ite hcondition (yes.statement (branchIndent indent yes)) (no.statement (branchIndent indent no))
    rw [CStmt.pieces, tokensOf_append, tokensOf_append, tokensOf_append, tokensOf_linePieces, tokensOf_linePieces,
      tokensOf_append, tokensOf_append]
    simp only [List.append_assoc, List.cons_append] at hite ⊢
    exact hite
  | .loop condition body, indent => by
    have hcondition := condition.exp (Nat.zero_le _) (by decide)
    have hloop := Statement.loop hcondition (body.statement (branchIndent indent body))
    rw [CStmt.pieces, tokensOf_append, tokensOf_linePieces, tokensOf_append, tokensOf_append]
    simp only [List.append_assoc, List.cons_append] at hloop ⊢
    exact hloop
  | .print e, indent => by
    have hprint : Exp 15 [word "System_out_println"] (.name "System_out_println") :=
      Exp.loosen (.name (by decide)) (by decide)
    have hcall := Exp.call hprint (.some (.last (e.exp (one_le_precedence e) (by decide))))
    have hstatement := Statement.expression (hcall.loosen (by decide))
    rw [CStmt.pieces, tokensOf_linePieces, tokensOf_append, tokensOf_append]
    simp only [List.append_assoc, List.cons_append] at hstatement
    exact hstatement
  | .assign place e, indent => by
    have hassign := statement_assign place.exp (e.exp (one_le_precedence e) (by decide))
    rw [CStmt.pieces, tokensOf_linePieces, tokensOf_append, tokensOf_append, tokensOf_append]
    rw [List.append_assoc] at hassign
    exact hassign
  | .store place i e, indent => by
    have hindex := Exp.index place.exp (i.exp (Nat.zero_le _) (by decide))
    have hassign := statement_assign hindex (e.exp (one_le_precedence e) (by decide))
    rw [CStmt.pieces, tokensOf_linePieces, tokensOf_append, tokensOf_append, tokensOf_append, tokensOf_append,
      tokensOf_append]
    simp only [List.append_assoc, List.cons_append] at hassign
    exact hassign
termination_by structural s => s

/-- **The tokens of statements yield their trees.** -/
theorem statements_stmtsPieces : ∀ (ss : List CStmt) (indent : Nat),
    Statements (tokensOf (stmtsPieces indent ss)) (stmtTrees ss)
  | [], _ => .nil
  | s :: ss, indent => by
    rw [stmtsPieces, tokensOf_append]
    exact .cons (s.statement indent) (statements_stmtsPieces ss indent)
termination_by structural ss => ss

end

/-! ## Different code, different trees -/

theorem memberName_ne_this (x : Name) : memberName x ≠ "this" := fun h => by
  have hthis : '_' ∉ "this".toList := by decide
  exact hthis (h ▸ mem_memberName x)

theorem Place.tree_injective : Function.Injective Place.tree := by
  intro place place' h
  cases place <;> cases place' <;> simp only [Place.tree, CTree.member.injEq, CTree.name.injEq, CTree.arrow.injEq,
    reduceCtorEq, true_and] at h
  all_goals rw [memberName_injective h]

/-- What has the tree of a place reads the place. -/
theorem eq_read_of_tree {place : Place} {e : CExpr} (h : e.tree = place.tree) : e = .read place := by
  cases e with
  | read place' => rw [Place.tree_injective h]
  | self =>
    cases place with
    | formal x => exact absurd (CTree.name.inj h).symm (memberName_ne_this x)
    | _ => cases h
  | _ => cases place <;> cases h

/-- No expression is a call by itself, and none reads a member of a difference. -/
theorem CExpr.tree_ne (e : CExpr) : (∀ f es, e.tree ≠ .call f es) ∧ ∀ op l r x, e.tree ≠ .arrow (.binary op l r) x := by
  cases e with
  | read place => cases place <;> exact ⟨nofun, nofun⟩
  | _ => exact ⟨nofun, nofun⟩

/-- What has the tree of a cast is a cast. -/
theorem eq_cast_of_tree {s : Storage} {x e : CExpr} (h : e.tree = (CExpr.cast s x).tree) :
    ∃ x', e = .cast s x' ∧ x'.tree = x.tree := by
  cases e with
  -- Lengths, arrays and objects are casts too, but of what no expression is by itself.
  | cast s' x' =>
    obtain ⟨hs, hx⟩ := CTree.cast.inj h
    exact ⟨x', by rw [Storage.ctype_injective hs], hx⟩
  | length a => exact absurd (CTree.cast.inj h).2.symm (x.tree_ne.2 _ _ _ _)
  | newArray n => exact absurd (CTree.cast.inj h).2.symm (x.tree_ne.1 _ _)
  | newObject c => exact absurd (CTree.cast.inj h).2.symm (x.tree_ne.1 _ _)
  | read place => cases place <;> cases h
  | _ => cases h

mutual

/-- **Expressions of one tree are one expression.** -/
theorem CExpr.Readable.tree_inj : ∀ {e e' : CExpr}, e.Readable → e'.Readable → e.tree = e'.tree → e = e'
  | .read _, _, _, _, heq => (eq_read_of_tree heq.symm).symm
  | .int v, e', h, h', heq => by
    cases e' with
    | int v' =>
      rw [CExpr.Readable] at h h'
      rw [← Int.toNat_of_nonneg h, ← Int.toNat_of_nonneg h', CTree.number.inj heq]
    | read place => exact eq_read_of_tree heq
    | _ => cases heq
  | .self, e', _, _, heq => by
    cases e' with
    | self => rfl
    | read place => exact eq_read_of_tree heq
    | _ => cases heq
  | .binary l op r, e', ⟨hl, hr⟩, h', heq => by
    cases e' with
    | binary l' op' r' =>
      obtain ⟨hop, hleft, hright⟩ := CTree.binary.inj heq
      rw [Op.sign_injective hop, hl.tree_inj h'.1 hleft, hr.tree_inj h'.2 hright]
    | call n r' m es => exact absurd (CTree.binary.inj heq).1 op.sign_ne_comma
    | read place => exact eq_read_of_tree heq
    | _ => cases heq
  | .not e, e', (h : e.Readable), h', heq => by
    cases e' with
    | not x =>
      have hx : x.Readable := h'
      rw [h.tree_inj hx (CTree.unary.inj heq).2]
    | read place => exact eq_read_of_tree heq
    | _ => cases heq
  | .index a i, e', ⟨ha, hi⟩, h', heq => by
    cases e' with
    | index a' i' =>
      obtain ⟨harray, hindex⟩ := CTree.index.inj heq
      rw [ha.tree_inj h'.1 harray, hi.tree_inj h'.2 hindex]
    | read place => exact eq_read_of_tree heq
    | _ => cases heq
  | .length a, e', (h : a.Readable), h', heq => by
    cases e' with
    | length a' =>
      simp only [CExpr.tree, CTree.cast.injEq, CTree.arrow.injEq, CTree.binary.injEq, true_and, and_true] at heq
      have ha' : a'.Readable := h'
      rw [h.tree_inj ha' heq]
    | read place => exact eq_read_of_tree heq
    | cast s x => obtain ⟨_, hcast, -⟩ := eq_cast_of_tree heq; cases hcast
    | _ => cases heq
  | .call n r m es, e', ⟨hr, _, hes⟩, h', heq => by
    cases e' with
    | call n' r' m' es' =>
      obtain ⟨hr', -, hes'⟩ := h'
      simp only [CExpr.tree, CTree.binary.injEq, CTree.assign.injEq, CTree.call.injEq, CTree.arrow.injEq, CTree.name.injEq,
        List.cons.injEq, true_and, and_true] at heq
      obtain ⟨⟨htemp, hreceiver⟩, ⟨-, hmethod⟩, -, harguments⟩ := heq
      rw [tempName_injective htemp, hr.tree_inj hr' hreceiver, memberName_injective hmethod, hes.tree_inj hes' harguments]
    | binary l op r' => exact absurd (CTree.binary.inj heq).1.symm op.sign_ne_comma
    | read place => exact eq_read_of_tree heq
    | _ => cases heq
  | .newArray e, e', (h : e.Readable), h', heq => by
    cases e' with
    | newArray x =>
      simp only [CExpr.tree, CTree.cast.injEq, CTree.call.injEq, List.cons.injEq, true_and, and_true] at heq
      have hx : x.Readable := h'
      rw [h.tree_inj hx heq]
    | read place => exact eq_read_of_tree heq
    | cast s x => obtain ⟨_, hcast, -⟩ := eq_cast_of_tree heq; cases hcast
    | _ => cases heq
  | .newObject c, e', _, _, heq => by
    cases e' with
    | newObject c' => rw [Storage.object.inj (Storage.ctype_injective (CTree.cast.inj heq).1)]
    | read place => exact eq_read_of_tree heq
    | cast s x => obtain ⟨_, hcast, -⟩ := eq_cast_of_tree heq; cases hcast
    | _ => cases heq
  | .cast s e, e', ⟨_, he⟩, h', heq => by
    obtain ⟨x, rfl, hx⟩ := eq_cast_of_tree heq.symm
    rw [he.tree_inj h'.2 hx.symm]
termination_by structural e => e

theorem AllReadable.tree_inj : ∀ {es es' : List CExpr}, AllReadable es → AllReadable es' →
    argumentTrees es = argumentTrees es' → es = es'
  | [], [], _, _, _ => rfl
  | e :: es, e' :: es', ⟨he, hes⟩, ⟨he', hes'⟩, heq => by
    obtain ⟨hhead, htail⟩ := List.cons.inj heq
    rw [he.tree_inj he' hhead, hes.tree_inj hes' htail]
termination_by structural es => es

end

mutual

/-- **Statements of one tree are one statement.** -/
theorem CStmt.Readable.tree_inj : ∀ {s s' : CStmt}, s.Readable → s'.Readable → s.tree = s'.tree → s = s'
  | .block body, s', h, h', heq => by
    cases s' with
    | block body' => rw [BodyReadable.tree_inj h h' (CStmtTree.block.inj heq)]
    | _ => cases heq
  | .ite c yes no, s', ⟨hc, hy, hn⟩, h', heq => by
    cases s' with
    | ite c' yes' no' =>
      obtain ⟨hc', hy', hn'⟩ := h'
      obtain ⟨hcondition, hyes, hno⟩ := CStmtTree.ite.inj heq
      rw [hc.tree_inj hc' hcondition, hy.tree_inj hy' hyes, hn.tree_inj hn' hno]
    | _ => cases heq
  | .loop c body, s', ⟨hc, hb⟩, h', heq => by
    cases s' with
    | loop c' body' =>
      obtain ⟨hcondition, hbody⟩ := CStmtTree.loop.inj heq
      rw [hc.tree_inj h'.1 hcondition, hb.tree_inj h'.2 hbody]
    | _ => cases heq
  | .print e, s', (h : e.Readable), h', heq => by
    cases s' with
    | print e' =>
      have he' : e'.Readable := h'
      simp only [CStmt.tree, CStmtTree.expression.injEq, CTree.call.injEq, List.cons.injEq, true_and, and_true] at heq
      rw [h.tree_inj he' heq]
    | _ => cases heq
  | .assign place e, s', ⟨_, he⟩, h', heq => by
    cases s' with
    | assign place' e' =>
      obtain ⟨hplace, hvalue⟩ := CTree.assign.inj (CStmtTree.expression.inj heq)
      rw [Place.tree_injective hplace, he.tree_inj h'.2 hvalue]
    | store place' i e' => cases place <;> cases heq
    | _ => cases heq
  | .store place i e, s', ⟨_, hi, he⟩, h', heq => by
    cases s' with
    | store place' i' e' =>
      obtain ⟨htarget, hvalue⟩ := CTree.assign.inj (CStmtTree.expression.inj heq)
      obtain ⟨hplace, hindex⟩ := CTree.index.inj htarget
      rw [Place.tree_injective hplace, hi.tree_inj h'.2.1 hindex, he.tree_inj h'.2.2 hvalue]
    | assign place' e' => cases place' <;> cases heq
    | _ => cases heq
termination_by structural s => s

theorem BodyReadable.tree_inj : ∀ {ss ss' : List CStmt}, BodyReadable ss → BodyReadable ss' →
    stmtTrees ss = stmtTrees ss' → ss = ss'
  | [], [], _, _, _ => rfl
  | s :: ss, s' :: ss', ⟨hs, hss⟩, ⟨hs', hss'⟩, heq => by
    obtain ⟨hhead, htail⟩ := List.cons.inj heq
    rw [hs.tree_inj hs' hhead, hss.tree_inj hss' htail]
termination_by structural ss => ss

end

end CUnit

end MiniJava
