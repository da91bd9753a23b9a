import MiniJava.Proofs.CText.Pieces
/-!
# The tokens of a unit's code

The pieces of an expression or a statement may stand where they do: no token among them could go on with what stands behind
it (`CExpr.joined_pieces`), whatever it is, and where the names are identifiers each word is a word of C
(`CExpr.Readable.proper_pieces`).  So C reads the tokens among the pieces from the text (`CExpr.Readable.tokens_text`,
`CStmt.Readable.tokens_text`).
-/
namespace MiniJava.CUnit

open CText

open Piece (word number mark blank)

/-! ## One piece after another -/

theorem joined_cons {p q : Piece} {ps : List Piece} (hpq : p.fits q = true) (h : joined (q :: ps) = true) :
    joined (p :: q :: ps) = true := by
  rw [joined, hpq, h]
  rfl

/-- Pieces in a row between a piece in front of them and what stands behind them. -/
theorem joined_between {p r q : Piece} {qs : List Piece} : ∀ {ps : List Piece}, ps.head? = some r → p.fits r = true →
    joined ps = true → ps.getLast? = some q → joined (q :: qs) = true → joined (p :: (ps ++ qs)) = true
  | [s], hhead, hp, _, hlast, h => by
    cases hhead
    cases hlast
    exact joined_cons hp h
  | s :: t :: ps, hhead, hp, hps, hlast, h => by
    cases hhead
    rw [joined, Bool.and_eq_true] at hps
    rw [List.getLast?_cons_cons] at hlast
    exact joined_cons hp (joined_between rfl hps.1 hps.2 hlast h)

/-- How an expression may begin. -/
def opens : CToken → Bool
  | .mark m => m ∈ ["(", "!"]
  | _ => true

/-- How an expression may end. -/
def closes : CToken → Bool
  | .mark m => m ∈ [")", "]"]
  | _ => true

/-- What may stand behind an expression. -/
def follows : Piece → Bool
  | .space _ => true
  | .token (.mark m) => m ∈ [")", "]", "[", ",", ";"]
  | _ => false

/-- An expression may stand behind the piece. -/
def Leads (p : Piece) : Prop := ∀ t, opens t = true → p.fits (.token t) = true

/-- The pieces may stand behind an expression. -/
def Trails (qs : List Piece) : Prop := ∀ t, closes t = true → joined (.token t :: qs) = true

theorem leads_blank : Leads blank := fun _ _ => rfl

theorem trails_nil : Trails [] := fun _ _ => rfl

theorem leads_mark {m : String} (hm : m ∈ ["(", "[", "!"]) : Leads (mark m) := by
  have hmarks : ∀ m ∈ ["(", "[", "!"], ∀ n ∈ ["(", "!"], (mark m).fits (mark n) = true := by decide
  intro t ht
  cases t with
  | word w => rfl
  | number n => rfl
  | mark n => exact hmarks m hm n (of_decide_eq_true ht)

theorem fits_of_follows {t : CToken} {q : Piece} (ht : closes t = true) (hq : follows q = true) :
    (Piece.token t).fits q = true := by
  have hmarks : ∀ m ∈ [")", "]", "[", ",", ";"], (∀ n ∈ [")", "]"], (mark n).fits (mark m) = true) ∧
      m.toList.head? ≠ some '.' := by decide
  match t, q with
  | _, .space _ => rfl
  | .word _, .token (.mark _) => rfl
  | .number _, .token (.mark m) => exact decide_eq_true (hmarks m (of_decide_eq_true hq)).2
  | .mark n, .token (.mark m) => exact (hmarks m (of_decide_eq_true hq)).1 n (of_decide_eq_true ht)

theorem trails_append {ps qs : List Piece} {r q : Piece} (hhead : ps.head? = some r) (hr : follows r = true)
    (hps : joined ps = true) (hlast : ps.getLast? = some q) (h : joined (q :: qs) = true) : Trails (ps ++ qs) :=
  fun _ ht => joined_between hhead (fits_of_follows ht hr) hps hlast h

theorem joined_operandPieces {e : CExpr} (h : ∀ {p : Piece} {qs : List Piece}, Leads p → Trails qs →
    joined (p :: (e.pieces ++ qs)) = true) (least : Nat) {p : Piece} {qs : List Piece} (hp : Leads p) (hqs : Trails qs) :
    joined (p :: (operandPieces least e e.pieces ++ qs)) = true := by
  rw [operandPieces]
  split
  · rw [List.cons_append, List.append_assoc]
    exact joined_cons (hp _ rfl) (h (leads_mark (by decide)) (trails_append rfl rfl rfl rfl (hqs _ rfl)))
  · exact h hp hqs

/-- A type in parentheses. -/
theorem joined_storagePieces (s : Storage) {qs : List Piece} (h : joined (mark ")" :: qs) = true) :
    joined (mark "(" :: (s.pieces ++ mark ")" :: qs)) = true := by
  cases s <;> exact joined_between rfl rfl rfl rfl (joined_cons rfl h)

mutual

/-- **The pieces of an expression may stand where they do**, in front of it and behind it too. -/
theorem CExpr.joined_pieces : ∀ (e : CExpr) {p : Piece} {qs : List Piece}, Leads p → Trails qs →
    joined (p :: (e.pieces ++ qs)) = true
  | .int _, _, _, hp, hqs => joined_cons (hp _ rfl) (hqs _ rfl)
  | .self, _, _, hp, hqs => joined_cons (hp _ rfl) (hqs _ rfl)
  | .read (.formal _), _, _, hp, hqs => joined_cons (hp _ rfl) (hqs _ rfl)
  | .read (.frame _), _, _, hp, hqs => joined_between rfl (hp _ rfl) rfl rfl (hqs _ rfl)
  | .read (.field _), _, _, hp, hqs => joined_between rfl (hp _ rfl) rfl rfl (hqs _ rfl)
  | .binary l op r, p, qs, hp, hqs => by
    rw [CExpr.pieces, List.append_assoc, List.append_assoc]
    refine joined_operandPieces l.joined_pieces _ hp (trails_append rfl rfl rfl rfl ?_)
    exact joined_operandPieces r.joined_pieces _ leads_blank hqs
  | .not e, p, qs, hp, hqs =>
    joined_cons (hp _ rfl) (joined_operandPieces e.joined_pieces _ (leads_mark (by decide)) hqs)
  | .index a i, p, qs, hp, hqs => by
    rw [CExpr.pieces, List.append_assoc, List.append_assoc, List.append_assoc]
    refine joined_operandPieces a.joined_pieces _ hp (trails_append rfl rfl rfl rfl ?_)
    exact i.joined_pieces (leads_mark (by decide)) (trails_append rfl rfl rfl rfl (hqs _ rfl))
  | .length a, p, qs, hp, hqs => by
    rw [CExpr.pieces, List.append_assoc, List.append_assoc]
    refine joined_between rfl (hp _ rfl) rfl rfl (a.joined_pieces (leads_mark (by decide)) ?_)
    exact trails_append rfl rfl rfl rfl (hqs _ rfl)
  | .call n r m es, p, qs, hp, hqs => by
    rw [CExpr.pieces, List.append_assoc, List.append_assoc, List.append_assoc, List.append_assoc]
    refine joined_between rfl (hp _ rfl) rfl rfl (r.joined_pieces leads_blank (trails_append rfl rfl rfl rfl ?_))
    exact joined_argumentsPieces es (trails_append rfl rfl rfl rfl (hqs _ rfl)) _ rfl
  | .newArray e, p, qs, hp, hqs => by
    rw [CExpr.pieces, List.append_assoc, List.append_assoc]
    refine joined_between rfl (hp _ rfl) rfl rfl (e.joined_pieces (leads_mark (by decide)) ?_)
    exact trails_append rfl rfl rfl rfl (hqs _ rfl)
  | .newObject c, p, qs, hp, hqs => joined_between rfl (hp _ rfl) rfl rfl (hqs _ rfl)
  | .cast s e, p, qs, hp, hqs => by
    rw [CExpr.pieces, List.append_assoc, List.append_assoc, List.append_assoc, List.append_assoc]
    refine joined_between rfl (hp _ rfl) rfl rfl (joined_storagePieces s (joined_cons rfl ?_))
    exact e.joined_pieces (leads_mark (by decide)) (trails_append rfl rfl rfl rfl (hqs _ rfl))
termination_by structural e => e

theorem joined_argumentsPieces : ∀ (es : List CExpr) {qs : List Piece}, Trails qs → Trails (argumentsPieces es ++ qs)
  | [], _, hqs => hqs
  | e :: es, qs, hqs => by
    rw [argumentsPieces, List.append_assoc, List.append_assoc]
    exact trails_append rfl rfl rfl rfl (e.joined_pieces leads_blank (joined_argumentsPieces es hqs))
termination_by structural es => es

end

/-- White space may stand anywhere. -/
theorem joined_space (c : Char) (qs : List Piece) : joined (.space c :: qs) = joined qs := by
  cases qs <;> rfl

theorem joined_linePieces {ps qs : List Piece} (h : joined (ps ++ .space '\n' :: qs) = true) (indent : Nat) :
    joined (linePieces indent ps ++ qs) = true := by
  rw [linePieces, List.append_assoc, List.append_assoc]
  induction indent with
  | zero => exact h
  | succ n ih =>
    rw [List.replicate_succ, List.cons_append, joined_space]
    exact ih

theorem joined_placePieces (place : Place) {qs : List Piece} (h : Trails qs) : joined (place.pieces ++ qs) = true :=
  joined_of_cons ((CExpr.read place).joined_pieces leads_blank h)

/-- The line of a control statement. -/
theorem joined_controlLine (w : String) (condition : CExpr) {qs : List Piece} (h : joined qs = true) (indent : Nat) :
    joined (linePieces indent ([word w, blank, mark "("] ++ (condition.pieces ++ [mark ")"])) ++ qs) = true := by
  refine joined_linePieces ?_ indent
  rw [List.append_assoc, List.append_assoc]
  refine condition.joined_pieces (leads_mark (by decide)) (trails_append rfl rfl rfl rfl (joined_cons rfl ?_))
  rwa [joined_space]

mutual

/-- **The pieces of a statement may stand where they do**, at the beginning of a line. -/
theorem CStmt.joined_pieces : ∀ (s : CStmt) (indent : Nat) {qs : List Piece}, joined qs = true →
    joined (s.pieces indent ++ qs) = true
  | .block body, indent, qs, h => by
    rw [CStmt.pieces, List.append_assoc, List.append_assoc]
    refine joined_linePieces (joined_cons rfl ?_) indent
    rw [joined_space]
    refine joined_stmtsPieces body _ (joined_linePieces (joined_cons rfl ?_) indent)
    rwa [joined_space]
  | .ite condition yes no, indent, qs, h => by
    rw [CStmt.pieces, List.append_assoc, List.append_assoc, List.append_assoc]
    refine joined_controlLine "if" condition (yes.joined_pieces _ (joined_linePieces (joined_cons rfl ?_) indent)) indent
    rw [joined_space]
    exact no.joined_pieces _ h
  | .loop condition body, indent, qs, h => by
    rw [CStmt.pieces, List.append_assoc]
    exact joined_controlLine "while" condition (body.joined_pieces _ h) indent
  | .print e, indent, qs, h => by
    rw [CStmt.pieces]
    refine joined_linePieces ?_ indent
    rw [List.append_assoc, List.append_assoc]
    refine joined_cons rfl (e.joined_pieces (leads_mark (by decide)) (trails_append rfl rfl rfl rfl (joined_cons rfl ?_)))
    rwa [joined_space]
  | .assign place e, indent, qs, h => by
    rw [CStmt.pieces]
    refine joined_linePieces ?_ indent
    rw [List.append_assoc, List.append_assoc, List.append_assoc]
    refine joined_placePieces place (trails_append rfl rfl rfl rfl ?_)
    refine e.joined_pieces leads_blank (trails_append rfl rfl rfl rfl (joined_cons rfl ?_))
    rwa [joined_space]
  | .store place i e, indent, qs, h => by
    rw [CStmt.pieces]
    refine joined_linePieces ?_ indent
    rw [List.append_assoc, List.append_assoc, List.append_assoc, List.append_assoc, List.append_assoc]
    refine joined_placePieces place (trails_append rfl rfl rfl rfl ?_)
    refine i.joined_pieces (leads_mark (by decide)) (trails_append rfl rfl rfl rfl ?_)
    refine e.joined_pieces leads_blank (trails_append rfl rfl rfl rfl (joined_cons rfl ?_))
    rwa [joined_space]
termination_by structural s => s

theorem joined_stmtsPieces : ∀ (ss : List CStmt) (indent : Nat) {qs : List Piece}, joined qs = true →
    joined (stmtsPieces indent ss ++ qs) = true
  | [], _, _, h => h
  | s :: ss, indent, qs, h => by
    rw [stmtsPieces, List.append_assoc]
    exact s.joined_pieces indent (joined_stmtsPieces ss indent h)
termination_by structural ss => ss

end

/-! ## Each piece by itself -/

theorem proper_word {w : String} {c : Char} {cs : List Char} (hw : w.toList = c :: cs) (hc : isNameStart c = true)
    (hcs : ∀ d ∈ cs, isWordChar d = true) : (word w).proper = true := by
  show (w.toList.head?.any isNameStart && w.toList.all isWordChar) = true
  rw [hw, Bool.and_eq_true, List.all_eq_true]
  exact ⟨hc, List.forall_mem_cons.2 ⟨wordChar_of_nameStart hc, hcs⟩⟩

theorem proper_memberName {x : Name} (hx : IsIdentifier x) : (word (memberName x)).proper = true :=
  proper_word (toList_memberName x) (by decide) (List.all_eq_true.1 hx.chars)

theorem proper_tempName (n : Nat) : (word (tempName n)).proper = true := by
  obtain ⟨c, cs, hn, hdigits, -⟩ := exists_digits n
  have hnumber : ∀ d ∈ (toString n).toList, isWordChar d = true := hn ▸ fun d hd => wordChar_of_digit (hdigits d hd)
  refine proper_word (toList_tempName n) (by decide) ?_
  exact List.forall_mem_cons.2 ⟨by decide, List.forall_mem_cons.2 ⟨by decide, hnumber⟩⟩

theorem mem_of_mem_doubleUnderscores {c : Char} {cs : List Char} (h : c ∈ doubleUnderscores cs) : c ∈ cs := by
  obtain ⟨d, hd, hc⟩ := List.mem_flatMap.1 h
  split at hc
  · rename_i heq
    simp only [List.mem_cons, List.not_mem_nil, or_false, or_self] at hc
    rwa [hc, ← heq]
  · rwa [List.mem_singleton.1 hc]

theorem proper_globalPart_append {x : Name} (hx : IsIdentifier x) {suffix : String}
    (hsuffix : ∀ d ∈ suffix.toList, isWordChar d = true) : (word (globalPart x ++ suffix)).proper = true := by
  obtain ⟨c, cs, hchars, hc, hcs⟩ := hx.exists_chars
  have hstart : isNameStart c = true := by rw [isNameStart, hc, Bool.true_or]
  have hne : c ≠ '_' := by
    rintro rfl
    exact absurd hc (by decide)
  have hword : (globalPart x ++ suffix).toList = c :: (doubleUnderscores cs ++ suffix.toList) := by
    rw [String.toList_append, toList_globalPart, hchars, doubleUnderscores_cons hne, List.cons_append]
  refine proper_word hword hstart (List.forall_mem_append.2 ⟨fun d hd => ?_, hsuffix⟩)
  exact hcs d (mem_of_mem_doubleUnderscores hd)

theorem proper_globalPart {x : Name} (hx : IsIdentifier x) : (word (globalPart x)).proper = true := by
  have hproper := @proper_globalPart_append x hx "" nofun
  rwa [String.append_empty] at hproper

theorem proper_storagePieces {s : Storage} (h : ∀ c, s = .object c → IsIdentifier c) :
    ∀ p ∈ s.pieces, p.proper = true := by
  cases s with
  | int => decide
  | intArray => decide
  | object c =>
    refine List.forall_mem_cons.2 ⟨by decide, List.forall_mem_cons.2 ⟨by decide, List.forall_mem_cons.2 ⟨?_, by decide⟩⟩⟩
    exact proper_globalPart (h c rfl)

theorem proper_placePieces {place : Place} (h : IsIdentifier place.name) : ∀ p ∈ place.pieces, p.proper = true := by
  have hname : (word (memberName place.name)).proper = true := proper_memberName h
  cases place with
  | formal x => exact List.forall_mem_singleton.2 hname
  | frame x | field x =>
    exact List.forall_mem_cons.2 ⟨by decide, List.forall_mem_cons.2 ⟨by decide, List.forall_mem_singleton.2 hname⟩⟩

theorem proper_operandPieces {e : CExpr} (h : ∀ p ∈ e.pieces, p.proper = true) (least : Nat) :
    ∀ p ∈ operandPieces least e e.pieces, p.proper = true := by
  rw [operandPieces]
  split
  · exact List.forall_mem_cons.2 ⟨by decide, List.forall_mem_append.2 ⟨h, by decide⟩⟩
  · exact h

mutual

/-- **The words of an expression are words of C.** -/
theorem CExpr.Readable.proper_pieces : ∀ {e : CExpr}, e.Readable → ∀ p ∈ e.pieces, p.proper = true
  | .int _, _ => List.forall_mem_singleton.2 rfl
  | .self, _ => List.forall_mem_singleton.2 (by decide)
  | .read place, h => proper_placePieces h
  | .binary l op r, ⟨hl, hr⟩ => by
    have hsign : ∀ p ∈ [blank, mark op.sign, blank], p.proper = true := by cases op <;> decide
    rw [CExpr.pieces]
    simp only [List.forall_mem_append]
    exact ⟨proper_operandPieces hl.proper_pieces _, hsign, proper_operandPieces hr.proper_pieces _⟩
  | .not e, (h : e.Readable) => List.forall_mem_cons.2 ⟨by decide, proper_operandPieces h.proper_pieces _⟩
  | .index a i, ⟨ha, hi⟩ => by
    rw [CExpr.pieces]
    simp only [List.forall_mem_append]
    exact ⟨proper_operandPieces ha.proper_pieces _, by decide, hi.proper_pieces, by decide⟩
  | .length a, (h : a.Readable) => by
    rw [CExpr.pieces]
    simp only [List.forall_mem_append]
    exact ⟨by decide, h.proper_pieces, by decide⟩
  | .call n r m es, ⟨hr, hm, hes⟩ => by
    have htemp := proper_tempName n
    have hmethod := proper_memberName hm
    rw [CExpr.pieces]
    simp only [List.forall_mem_append, List.forall_mem_cons, htemp, hmethod, true_and]
    exact ⟨by decide, hr.proper_pieces, by decide, hes.proper_pieces, by decide⟩
  | .newArray e, (h : e.Readable) => by
    rw [CExpr.pieces]
    simp only [List.forall_mem_append]
    exact ⟨by decide, h.proper_pieces, by decide⟩
  | .newObject c, (hc : IsIdentifier c) => by
    have htable : (word (vtableSymbol c)).proper = true := proper_globalPart_append hc (List.all_eq_true.1 (by decide))
    have hsize : (word (sizeSymbol c)).proper = true := proper_globalPart_append hc (List.all_eq_true.1 (by decide))
    rw [CExpr.pieces]
    simp only [List.forall_mem_cons, proper_globalPart hc, htable, hsize, true_and]
    decide
  | .cast s e, ⟨hs, he⟩ => by
    rw [CExpr.pieces]
    simp only [List.forall_mem_append]
    exact ⟨by decide, proper_storagePieces hs, by decide, he.proper_pieces, by decide⟩
termination_by structural e => e

theorem AllReadable.proper_pieces : ∀ {es : List CExpr}, AllReadable es → ∀ p ∈ argumentsPieces es, p.proper = true
  | [], _ => nofun
  | e :: es, ⟨he, hes⟩ => by
    rw [argumentsPieces]
    simp only [List.forall_mem_append]
    exact ⟨by decide, he.proper_pieces, hes.proper_pieces⟩
termination_by structural es => es

end

theorem proper_linePieces {ps : List Piece} (h : ∀ p ∈ ps, p.proper = true) (indent : Nat) :
    ∀ p ∈ linePieces indent ps, p.proper = true := by
  rw [linePieces]
  simp only [List.forall_mem_append]
  refine ⟨fun p hp => ?_, h, by decide⟩
  rw [List.eq_of_mem_replicate hp]
  decide

mutual

/-- **The words of a statement are words of C.** -/
theorem CStmt.Readable.proper_pieces : ∀ {s : CStmt}, s.Readable → ∀ indent, ∀ p ∈ s.pieces indent, p.proper = true
  | .block body, h, indent => by
    rw [CStmt.pieces]
    simp only [List.forall_mem_append]
    exact ⟨proper_linePieces (by decide) indent, BodyReadable.proper_pieces h _, proper_linePieces (by decide) indent⟩
  | .ite condition yes no, ⟨hc, hy, hn⟩, indent => by
    rw [CStmt.pieces]
    simp only [List.forall_mem_append]
    refine ⟨proper_linePieces ?_ indent, hy.proper_pieces _, proper_linePieces (by decide) indent, hn.proper_pieces _⟩
    simp only [List.forall_mem_append]
    exact ⟨by decide, hc.proper_pieces, by decide⟩
  | .loop condition body, ⟨hc, hb⟩, indent => by
    rw [CStmt.pieces]
    simp only [List.forall_mem_append]
    refine ⟨proper_linePieces ?_ indent, hb.proper_pieces _⟩
    simp only [List.forall_mem_append]
    exact ⟨by decide, hc.proper_pieces, by decide⟩
  | .print e, (h : e.Readable), indent => by
    refine proper_linePieces ?_ indent
    simp only [List.forall_mem_append]
    exact ⟨by decide, h.proper_pieces, by decide⟩
  | .assign place e, ⟨hp, he⟩, indent => by
    refine proper_linePieces ?_ indent
    simp only [List.forall_mem_append]
    exact ⟨proper_placePieces hp, by decide, he.proper_pieces, by decide⟩
  | .store place i e, ⟨hp, hi, he⟩, indent => by
    refine proper_linePieces ?_ indent
    simp only [List.forall_mem_append]
    exact ⟨proper_placePieces hp, by decide, hi.proper_pieces, by decide, he.proper_pieces, by decide⟩
termination_by structural s => s

theorem BodyReadable.proper_pieces : ∀ {ss : List CStmt}, BodyReadable ss → ∀ indent, ∀ p ∈ stmtsPieces indent ss,
    p.proper = true
  | [], _, _ => nofun
  | s :: ss, ⟨hs, hss⟩, indent => by
    rw [stmtsPieces]
    exact List.forall_mem_append.2 ⟨hs.proper_pieces indent, hss.proper_pieces indent⟩
termination_by structural ss => ss

end

/-! ## Tokens of the text -/

/-- **The tokens of the text of an expression.** -/
theorem CExpr.Readable.tokens_text {e : CExpr} (h : e.Readable) : tokens e.text.toList = some (tokensOf e.pieces) := by
  have hjoined := joined_of_cons (e.joined_pieces leads_blank trails_nil)
  rw [List.append_nil] at hjoined
  rw [← h.written_pieces]
  exact tokens_written h.proper_pieces hjoined

/-- **The tokens of the text of statements.** -/
theorem BodyReadable.tokens_text {ss : List CStmt} (h : BodyReadable ss) (indent : Nat) :
    tokens (linesText (stmtsLines indent ss)).toList = some (tokensOf (stmtsPieces indent ss)) := by
  have hjoined := @joined_stmtsPieces ss indent [] rfl
  rw [List.append_nil] at hjoined
  rw [toList_linesText, ← h.written_pieces]
  exact tokens_written (h.proper_pieces indent) hjoined

theorem CStmt.Readable.tokens_text {s : CStmt} (h : s.Readable) (indent : Nat) :
    tokens (linesText (s.lines indent)).toList = some (tokensOf (s.pieces indent)) := by
  have hjoined := @CStmt.joined_pieces s indent [] rfl
  rw [List.append_nil] at hjoined
  rw [toList_linesText, ← h.written_pieces]
  exact tokens_written (h.proper_pieces indent) hjoined

end MiniJava.CUnit
