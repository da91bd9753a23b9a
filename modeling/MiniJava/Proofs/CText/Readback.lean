import MiniJava.Proofs.CText.Lowered
import MiniJava.Proofs.CText.Spacing
import MiniJava.Proofs.CText.Trees
/-!
# Reading code back

The text of an expression, a statement or the code of a function yields its tree and no other: C reads its tokens from the
text, and these yield one tree at most.  As different code has different trees, no two texts of different code are the same
(`text_reads_back`).
-/
namespace MiniJava

open CText CUnit

namespace CText

section

variable {α : Type} {R : List CToken → α → Prop} {text : String} {a b : α}

/-- **The tokens of the text yield this and nothing else.** -/
def Yields (R : List CToken → α → Prop) (text : String) (a : α) : Prop :=
  ∃ ts, tokens text.toList = some ts ∧ ∀ b, R ts b ↔ b = a

theorem Yields.intro {ts : List CToken} (hts : tokens text.toList = some ts) (ha : R ts a)
    (hunique : ∀ b, R ts b → b = a) : Yields R text a :=
  ⟨ts, hts, fun b => ⟨hunique b, fun heq => heq ▸ ha⟩⟩

theorem Yields.unique (ha : Yields R text a) (hb : Yields R text b) : a = b := by
  obtain ⟨ts, hts, hyields⟩ := ha
  obtain ⟨us, hus, hyields'⟩ := hb
  cases hts.symm.trans hus
  exact (hyields' a).1 ((hyields a).2 rfl)

end

/-- The tokens yield a statement, whether or not an `else` could go on from it. -/
def AnyStatement (ts : List CToken) (s : CStmtTree) : Prop := ∃ closed, Statement closed ts s

end CText

namespace CUnit

theorem CExpr.Readable.yields {e : CExpr} (h : e.Readable) : Yields (Exp 0) e.text e.tree := by
  have hexp : Exp 0 (tokensOf e.pieces) e.tree := e.exp (Nat.zero_le _) (by decide)
  exact .intro h.tokens_text hexp fun _ hexp' => hexp'.unique hexp

theorem CStmt.Readable.yields {s : CStmt} (h : s.Readable) (indent : Nat) :
    Yields AnyStatement (linesText (s.lines indent)) s.tree := by
  have hstatement := s.statement indent
  exact .intro (h.tokens_text indent) ⟨true, hstatement⟩ fun _ ⟨_, hstatement'⟩ => hstatement'.unique hstatement

/-! ## The code of a function -/

namespace Function

open Piece (word mark blank)

/-- The statement that the code of a function ends with. -/
def resultPieces (f : Function) : List Piece :=
  linePieces indentStep ([word "__result", blank, mark "=", blank] ++ (f.result.pieces ++ [mark ";"]))

def codePieces (f : Function) : List Piece := stmtsPieces indentStep f.body ++ f.resultPieces

/-- **The trees of the code of a function.** -/
def codeTrees (f : Function) : List CStmtTree :=
  stmtTrees f.body ++ [.expression (.assign (.name "__result") f.result.tree)]

theorem written_codePieces {f : Function} (h : f.Readable) : written f.codePieces = charsOf f.codeLines := by
  have hresult : written f.resultPieces = charsOf ["  __result = " ++ f.result.text ++ ";"] := by
    refine (@written_linePieces _ ("__result = " ++ f.result.text ++ ";") ?_ indentStep).trans ?_
    · simp only [written_append, String.toList_append, h.result.written_pieces, List.append_assoc]
      rfl
    · rw [indented, ← String.append_assoc, ← String.append_assoc]
      rfl
  rw [codePieces, codeLines, written_append, charsOf_append, h.body.written_pieces, hresult]

theorem joined_codePieces (f : Function) : joined f.codePieces = true := by
  refine joined_stmtsPieces f.body indentStep ?_
  rw [resultPieces, ← List.append_nil (linePieces _ _)]
  refine joined_linePieces ?_ indentStep
  rw [List.append_assoc, List.append_assoc]
  have hresult := f.result.joined_pieces leads_blank (@trails_append [mark ";"] [.space '\n'] _ _ rfl rfl rfl rfl rfl)
  exact joined_of_cons (@joined_between blank _ _ _ _ rfl rfl rfl rfl hresult)

theorem proper_codePieces {f : Function} (h : f.Readable) : ∀ p ∈ f.codePieces, p.proper = true := by
  refine List.forall_mem_append.2 ⟨h.body.proper_pieces _, proper_linePieces ?_ _⟩
  simp only [List.forall_mem_append]
  exact ⟨by decide, h.result.proper_pieces, by decide⟩

theorem statement_resultPieces (f : Function) :
    Statement true (tokensOf f.resultPieces) (.expression (.assign (.name "__result") f.result.tree)) := by
  have hname : Exp 16 [CToken.word "__result"] (.name "__result") := .name (by decide)
  have hassign := statement_assign (hname.loosen (by decide)) (f.result.exp (one_le_precedence _) (by decide))
  rw [resultPieces, tokensOf_linePieces, tokensOf_append, tokensOf_append]
  exact hassign

theorem Readable.yields {f : Function} (h : f.Readable) : Yields Statements (linesText f.codeLines) f.codeTrees := by
  have htokens : tokens (linesText f.codeLines).toList = some (tokensOf f.codePieces) := by
    rw [toList_linesText, ← written_codePieces h]
    exact tokens_written (proper_codePieces h) f.joined_codePieces
  have hstatements : Statements (tokensOf f.codePieces) f.codeTrees := by
    have hresult := Statements.cons f.statement_resultPieces .nil
    rw [List.append_nil] at hresult
    rw [codePieces, tokensOf_append, codeTrees]
    exact (statements_stmtsPieces f.body indentStep).append hresult
  exact .intro htokens hstatements fun _ hstatements' => hstatements'.unique hstatements

/-- Functions of one tree have one body and one result. -/
theorem Readable.codeTrees_inj {f f' : Function} (h : f.Readable) (h' : f'.Readable) (heq : f.codeTrees = f'.codeTrees) :
    f.body = f'.body ∧ f.result = f'.result := by
  obtain ⟨hbody, hresult⟩ := List.append_inj' heq rfl
  obtain ⟨-, hvalue⟩ := CTree.assign.inj (CStmtTree.expression.inj (List.cons.inj hresult).1)
  exact ⟨h.body.tree_inj h'.body hbody, h.result.tree_inj h'.result hvalue⟩

end Function

end CUnit

/-- **Code that is written reads back as the code that it was.**  The text of every expression without negative numbers and
with identifiers for names yields, in the grammar of C, its tree and no other; so does the text of every statement, at every
indentation, an `else` going with the nearest `if`, and so does the code of every function.  No other expression has this
text, no other statement has it at any indentation, and no function with another body or another result has this code.
All functions of an elaborated program have such code if the names that the program declares are identifiers, and so has its
main function. -/
theorem text_reads_back :
    (∀ e : CExpr, e.Readable → Yields (Exp 0) e.text e.tree ∧ ∀ e' : CExpr, e'.Readable → e'.text = e.text → e' = e) ∧
    (∀ (s : CStmt) (indent : Nat), s.Readable → Yields AnyStatement (linesText (s.lines indent)) s.tree ∧
      ∀ (s' : CStmt) (indent' : Nat), s'.Readable → linesText (s'.lines indent') = linesText (s.lines indent) → s' = s) ∧
    (∀ f : Function, f.Readable → Yields Statements (linesText f.codeLines) f.codeTrees ∧
      ∀ f' : Function, f'.Readable → linesText f'.codeLines = linesText f.codeLines →
        f'.body = f.body ∧ f'.result = f.result) ∧
    ∀ (p : Program) (dump : Dump) (e : Elaborated), (p.elaborate dump).result = .ok e →
      (∀ x ∈ p.declaredNames, IsIdentifier x) →
      ∃ u, (lowerProgram e.program).result = .ok u ∧ (∀ f ∈ u.functions, f.Readable) ∧ u.main.body.Readable := by
  refine ⟨fun e h => ⟨h.yields, fun e' h' heq => ?_⟩, fun s indent h => ⟨h.yields indent, fun s' indent' h' heq => ?_⟩,
    fun f h => ⟨h.yields, fun f' h' heq => ?_⟩, fun p dump e he hnames => ?_⟩
  · exact h'.tree_inj h (h'.yields.unique (heq ▸ h.yields))
  · exact h'.tree_inj h ((h'.yields indent').unique (heq ▸ h.yields indent))
  · exact h'.codeTrees_inj h (h'.yields.unique (heq ▸ h.yields))
  · obtain ⟨hsound, hunmark⟩ := elaborate_sound he
    obtain ⟨u, hu⟩ := lowerProgram_total hsound
    have hnames' : ∀ x ∈ e.program.declaredNames, IsIdentifier x := by
      rwa [← Program.declaredNames_unmark, hunmark, Program.declaredNames_unmark]
    exact ⟨u, hu, readable_of_lowerProgram hsound hnames' hu⟩

/-- A sum in a product, and the code of a program with two classes. -/
theorem text_reads_back_on_sample :
    Yields (Exp 0) "(1 + 2) * 3" (.binary "*" (.binary "+" (.number 1) (.number 2)) (.number 3)) ∧
    ∃ e u, (Sample.program.elaborate ⟨false, false⟩).result = .ok e ∧ (∀ x ∈ Sample.program.declaredNames, IsIdentifier x) ∧
      (lowerProgram e.program).result = .ok u ∧
      (∀ f ∈ u.functions, Yields Statements (linesText f.codeLines) f.codeTrees) ∧
      Yields AnyStatement (linesText (u.main.body.lines indentStep)) u.main.body.tree := by
  have hnames : ∀ x ∈ Sample.program.declaredNames, IsIdentifier x := by decide
  obtain ⟨hexpressions, hstatements, hfunctions, hprograms⟩ := text_reads_back
  obtain ⟨u, hu, hcode, hmain⟩ := hprograms Sample.program ⟨false, false⟩ _ rfl hnames
  refine ⟨?_, _, u, rfl, hnames, hu, fun f hf => (hfunctions f (hcode f hf)).1, (hstatements _ indentStep hmain).1⟩
  exact (hexpressions (.binary (.binary (.int 1) .add (.int 2)) .mul (.int 3)) (by simp [CExpr.Readable])).1

end MiniJava
