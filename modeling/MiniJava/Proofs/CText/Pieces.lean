import MiniJava.Proofs.CText.Tokens
import MiniJava.Proofs.CUnit.Declarators
import MiniJava.Proofs.CUnit.Symbols
/-!
# The pieces of a unit's code

The text of an expression or a statement as tokens with white space between them (`CExpr.pieces`, `CStmt.pieces`).  Their
text is that of the expression or the statement (`CExpr.Readable.written_pieces`, `CStmt.Readable.written_pieces`), if its
numbers are not negative: in front of a negative one C would read an operator.
-/
namespace MiniJava

open CText

namespace CText.Piece

abbrev word (w : String) : Piece := .token (.word w)

abbrev number (n : Nat) : Piece := .token (.number n)

abbrev mark (m : String) : Piece := .token (.mark m)

abbrev blank : Piece := .space ' '

end CText.Piece

open Piece (word number mark blank)

def Storage.pieces : Storage → List Piece
  | int => [word "int"]
  | intArray => [word "int", blank, mark "*"]
  | object c => [word "struct", blank, word (CUnit.globalPart c), blank, mark "*"]

namespace CUnit

/-! ## Expressions and statements in pieces -/

def Place.pieces : Place → List Piece
  | frame x => [word "__frame", mark ".", word (memberName x)]
  | formal x => [word (memberName x)]
  | field x => [word "this", mark "->", word (memberName x)]

def operandPieces (least : Nat) (e : CExpr) (ps : List Piece) : List Piece :=
  if precedence e < least then mark "(" :: (ps ++ [mark ")"]) else ps

mutual

def CExpr.pieces : CExpr → List Piece
  | .int v => [number v.toNat]
  | .self => [word "this"]
  | .read place => place.pieces
  | .binary left op right =>
    let level := precedence (.binary left op right)
    operandPieces level left left.pieces ++ ([blank, mark op.sign, blank] ++ operandPieces (level + 1) right right.pieces)
  | .not e => mark "!" :: operandPieces 14 e e.pieces
  | .index array i => operandPieces 15 array array.pieces ++ ([mark "["] ++ (i.pieces ++ [mark "]"]))
  | .length array =>
    [mark "(", mark "(", word "int", mark ")", mark "(", mark "(", mark "(", word "struct", blank,
      word "Tiger_object_header", blank, mark "*", mark ")", mark "("] ++ (array.pieces ++ [mark ")", mark ")", blank,
      mark "-", blank, number 1, mark ")", mark "->", word "length", mark ")"])
  | .call temp receiver method arguments =>
    let t := word (tempName temp)
    [mark "(", t, blank, mark "=", blank] ++ (receiver.pieces ++ ([mark ",", blank, t, mark "->", word "vptr", mark "->",
      word (memberName method), mark "(", t] ++ (argumentsPieces arguments ++ [mark ")", mark ")"])))
  | .newArray n =>
    [mark "(", mark "(", word "int", blank, mark "*", mark ")", word "Tiger_new_array", mark "("] ++
      (n.pieces ++ [mark ")", mark ")"])
  | .newObject c =>
    [mark "(", mark "(", word "struct", blank, word (globalPart c), blank, mark "*", mark ")", mark "(", word "Tiger_new",
      mark "(", mark "&", word (vtableSymbol c), mark ",", blank, word (sizeSymbol c), mark ")", mark ")", mark ")"]
  | .cast s e => [mark "(", mark "("] ++ (s.pieces ++ ([mark ")", mark "("] ++ (e.pieces ++ [mark ")", mark ")"])))

def argumentsPieces : List CExpr → List Piece
  | [] => []
  | e :: es => [mark ",", blank] ++ (e.pieces ++ argumentsPieces es)

end

/-- A line of code with the line feed behind it. -/
def linePieces (indent : Nat) (ps : List Piece) : List Piece := List.replicate indent blank ++ (ps ++ [.space '\n'])

mutual

def CStmt.pieces (indent : Nat) : CStmt → List Piece
  | .block body =>
    linePieces indent [mark "\x7b"] ++ (stmtsPieces (indent + indentStep) body ++ linePieces indent [mark "\x7d"])
  | .ite condition yes no =>
    linePieces indent ([word "if", blank, mark "("] ++ (condition.pieces ++ [mark ")"])) ++
      (yes.pieces (branchIndent indent yes) ++ (linePieces indent [word "else"] ++ no.pieces (branchIndent indent no)))
  | .loop condition body =>
    linePieces indent ([word "while", blank, mark "("] ++ (condition.pieces ++ [mark ")"])) ++
      body.pieces (branchIndent indent body)
  | .print e => linePieces indent ([word "System_out_println", mark "("] ++ (e.pieces ++ [mark ")", mark ";"]))
  | .assign place e => linePieces indent (place.pieces ++ ([blank, mark "=", blank] ++ (e.pieces ++ [mark ";"])))
  | .store place i e =>
    linePieces indent (place.pieces ++ ([mark "["] ++ (i.pieces ++ ([mark "]", blank, mark "=", blank] ++
      (e.pieces ++ [mark ";"])))))

def stmtsPieces (indent : Nat) : List CStmt → List Piece
  | [] => []
  | s :: ss => s.pieces indent ++ stmtsPieces indent ss

end

/-! ## What can be read -/

def Place.name : Place → Name
  | frame x | formal x | field x => x

mutual

/-- **An expression whose numbers are not negative and whose names are identifiers.** -/
def CExpr.Readable : CExpr → Prop
  | .int v => 0 ≤ v
  | .self => True
  | .read place => IsIdentifier place.name
  | .binary left _ right => left.Readable ∧ right.Readable
  | .not e | .length e | .newArray e => e.Readable
  | .index array i => array.Readable ∧ i.Readable
  | .call _ receiver method arguments => receiver.Readable ∧ IsIdentifier method ∧ AllReadable arguments
  | .newObject c => IsIdentifier c
  | .cast s e => (∀ c, s = .object c → IsIdentifier c) ∧ e.Readable

def AllReadable : List CExpr → Prop
  | [] => True
  | e :: es => e.Readable ∧ AllReadable es

end

mutual

/-- A statement whose numbers are not negative and whose names are identifiers. -/
def CStmt.Readable : CStmt → Prop
  | .block body => BodyReadable body
  | .ite condition yes no => condition.Readable ∧ yes.Readable ∧ no.Readable
  | .loop condition body => condition.Readable ∧ body.Readable
  | .print e => e.Readable
  | .assign place e => IsIdentifier place.name ∧ e.Readable
  | .store place i e => IsIdentifier place.name ∧ i.Readable ∧ e.Readable

def BodyReadable : List CStmt → Prop
  | [] => True
  | s :: ss => s.Readable ∧ BodyReadable ss

end

/-! ## The text -/

theorem written_storagePieces (s : Storage) : written s.pieces = s.cType.toList := by
  cases s with
  | int => rfl
  | intArray => rfl
  | object c =>
    rw [Storage.cType, String.toList_append, String.toList_append]
    rfl

theorem Place.written_pieces (place : Place) : written place.pieces = place.text.toList := by
  cases place with
  | formal x => exact List.append_nil _
  | frame x =>
    rw [Place.text, String.toList_append]
    show "__frame.".toList ++ ((memberName x).toList ++ []) = _
    rw [List.append_nil]
  | field x =>
    rw [Place.text, String.toList_append]
    show "this->".toList ++ ((memberName x).toList ++ []) = _
    rw [List.append_nil]

theorem written_operandPieces {e : CExpr} (h : written e.pieces = e.text.toList) (least : Nat) :
    written (operandPieces least e e.pieces) = (operandText least e e.text).toList := by
  rw [operandPieces, operandText]
  split
  · rw [String.toList_append, String.toList_append, ← h]
    show '(' :: written (e.pieces ++ [mark ")"]) = _
    rw [written_append]
    rfl
  · exact h

/-- A number that is not negative is written with its digits only. -/
theorem written_number {v : Int} (h : 0 ≤ v) : written [number v.toNat] = (toString v).toList := by
  obtain ⟨n, rfl⟩ := Int.eq_ofNat_of_zero_le h
  exact List.append_nil _

mutual

/-- **The text of an expression, piece by piece.** -/
theorem CExpr.Readable.written_pieces : ∀ {e : CExpr}, e.Readable → written e.pieces = e.text.toList
  | .int v, h => by
    rw [CExpr.Readable] at h
    exact written_number h
  | .self, _ => rfl
  | .read place, _ => place.written_pieces
  | .binary left op right, ⟨hl, hr⟩ => by
    have hsign : written [blank, mark op.sign, blank] = " ".toList ++ (op.sign.toList ++ " ".toList) := rfl
    unfold CExpr.pieces CExpr.text
    simp only [written_append, String.toList_append, written_operandPieces hl.written_pieces,
      written_operandPieces hr.written_pieces, hsign, List.append_assoc]
  | .not e, (h : e.Readable) => by
    unfold CExpr.text
    rw [String.toList_append, ← written_operandPieces h.written_pieces]
    rfl
  | .index array i, ⟨ha, hi⟩ => by
    unfold CExpr.pieces CExpr.text
    simp only [written_append, String.toList_append, written_operandPieces ha.written_pieces, hi.written_pieces,
      List.append_assoc]
    rfl
  | .length array, (h : array.Readable) => by
    unfold CExpr.pieces CExpr.text
    simp only [written_append, String.toList_append, h.written_pieces, List.append_assoc]
    rfl
  | .call temp receiver method arguments, ⟨hr, _, hes⟩ => by
    unfold CExpr.pieces CExpr.text
    simp only [written_append, written_cons, String.toList_append, hr.written_pieces, hes.written_pieces,
      List.append_assoc]
    rfl
  | .newArray n, (h : n.Readable) => by
    unfold CExpr.pieces CExpr.text
    simp only [written_append, String.toList_append, h.written_pieces, List.append_assoc]
    rfl
  | .newObject c, _ => by
    unfold CExpr.pieces CExpr.text
    simp only [written_cons, String.toList_append, List.append_assoc]
    rfl
  | .cast s e, ⟨_, he⟩ => by
    unfold CExpr.pieces CExpr.text
    simp only [written_append, String.toList_append, written_storagePieces, he.written_pieces, List.append_assoc]
    rfl
termination_by structural e => e

theorem AllReadable.written_pieces : ∀ {es : List CExpr}, AllReadable es →
    written (argumentsPieces es) = (argumentsText es).toList
  | [], _ => rfl
  | e :: es, ⟨he, hes⟩ => by
    unfold argumentsPieces argumentsText
    simp only [written_append, String.toList_append, he.written_pieces, hes.written_pieces, List.append_assoc]
    rfl
termination_by structural es => es

end

/-- Lines with a line feed behind each of them. -/
def linesText (lines : List String) : String := String.join (lines.map (· ++ "\n"))

/-- The characters of lines. -/
def charsOf (lines : List String) : List Char := lines.flatMap fun line => line.toList ++ ['\n']

theorem toList_linesText (lines : List String) : (linesText lines).toList = charsOf lines := by
  rw [linesText, String.toList_join, List.flatMap_map, charsOf]
  exact congrArg (lines.flatMap ·) (funext fun line => String.toList_append)

theorem charsOf_cons (line : String) (lines : List String) :
    charsOf (line :: lines) = charsOf [line] ++ charsOf lines := by
  rw [charsOf, charsOf, charsOf, List.flatMap_cons, List.flatMap_singleton]

theorem charsOf_append (ls ms : List String) : charsOf (ls ++ ms) = charsOf ls ++ charsOf ms := List.flatMap_append

theorem written_linePieces {ps : List Piece} {text : String} (h : written ps = text.toList) (indent : Nat) :
    written (linePieces indent ps) = charsOf [indented indent text] := by
  have hblanks : ∀ n, written (List.replicate n blank) = List.replicate n ' ' := fun n => by
    induction n with
    | zero => rfl
    | succ n ih => rw [List.replicate_succ, written_cons, ih]; rfl
  rw [linePieces, written_append, written_append, hblanks, h, charsOf, List.flatMap_singleton, indented,
    String.toList_append, String.toList_ofList, List.append_assoc]
  rfl

mutual

/-- **The text of a statement, piece by piece.** -/
theorem CStmt.Readable.written_pieces : ∀ {s : CStmt}, s.Readable → ∀ indent,
    written (s.pieces indent) = charsOf (s.lines indent)
  | .block body, h, indent => by
    have hopen : written (linePieces indent [mark "\x7b"]) = charsOf [indented indent "\x7b"] :=
      written_linePieces rfl indent
    have hclose : written (linePieces indent [mark "\x7d"]) = charsOf [indented indent "\x7d"] :=
      written_linePieces rfl indent
    rw [CStmt.pieces, CStmt.lines, written_append, written_append, hopen, hclose, BodyReadable.written_pieces h,
      List.cons_append, charsOf_cons _ (_ ++ _), charsOf_append]
  | .ite condition yes no, ⟨hc, hy, hn⟩, indent => by
    have hif : written (linePieces indent ([word "if", blank, mark "("] ++ (condition.pieces ++ [mark ")"]))) =
        charsOf [indented indent ("if (" ++ condition.text ++ ")")] := by
      refine written_linePieces ?_ indent
      simp only [written_append, String.toList_append, hc.written_pieces, List.append_assoc]
      rfl
    have helse : written (linePieces indent [word "else"]) = charsOf [indented indent "else"] :=
      written_linePieces rfl indent
    rw [CStmt.pieces, CStmt.lines, written_append, written_append, written_append, hif, helse, hy.written_pieces,
      hn.written_pieces, List.cons_append, charsOf_cons _ (_ ++ _), charsOf_append, charsOf_cons _ (no.lines _)]
  | .loop condition body, ⟨hc, hb⟩, indent => by
    have hwhile : written (linePieces indent ([word "while", blank, mark "("] ++ (condition.pieces ++ [mark ")"]))) =
        charsOf [indented indent ("while (" ++ condition.text ++ ")")] := by
      refine written_linePieces ?_ indent
      simp only [written_append, String.toList_append, hc.written_pieces, List.append_assoc]
      rfl
    rw [CStmt.pieces, CStmt.lines, written_append, hwhile, hb.written_pieces, charsOf_cons _ (body.lines _)]
  | .print e, (h : e.Readable), indent => by
    rw [CStmt.pieces, CStmt.lines]
    refine written_linePieces ?_ indent
    simp only [written_append, String.toList_append, h.written_pieces, List.append_assoc]
    rfl
  | .assign place e, ⟨_, he⟩, indent => by
    rw [CStmt.pieces, CStmt.lines]
    refine written_linePieces ?_ indent
    simp only [written_append, String.toList_append, place.written_pieces, he.written_pieces, List.append_assoc]
    rfl
  | .store place i e, ⟨_, hi, he⟩, indent => by
    rw [CStmt.pieces, CStmt.lines]
    refine written_linePieces ?_ indent
    simp only [written_append, String.toList_append, place.written_pieces, hi.written_pieces, he.written_pieces,
      List.append_assoc]
    rfl
termination_by structural s => s

theorem BodyReadable.written_pieces : ∀ {ss : List CStmt}, BodyReadable ss → ∀ indent,
    written (stmtsPieces indent ss) = charsOf (stmtsLines indent ss)
  | [], _, _ => rfl
  | s :: ss, ⟨hs, hss⟩, indent => by
    rw [stmtsPieces, stmtsLines, written_append, charsOf_append, hs.written_pieces indent, hss.written_pieces indent]
termination_by structural ss => ss

end

end CUnit

end MiniJava
