import MiniJava.Text.Quoted
import MiniJava.Token.Basic
/-!
# Segments

The lexical grammar.  A text is cut into segments one after another: blanks (white space and comments), tokens, and
faults.  A fault is the text of an attempt that failed together with the rest of its line, which is given up.  No
character is lost: the segments' texts join up to the text that was cut (`flatMap_text_segments`).
-/
namespace MiniJava

inductive LexError where
  /-- No token begins with this character. -/
  | badChar (c : Char)
  /-- Only this character could have followed. -/
  | expected (c : Char)
  | intOverflow
  | unterminatedComment
  deriving DecidableEq, Repr

/-- The largest integer literal, one less than `2 ^ 31`. -/
def maxLiteral : Nat := 2147483647

def LexError.message : LexError → String
  | badChar c => "Bad character " ++ Text.quoted c ++ " in input stream"
  | expected c => "Expected " ++ Text.quoted c
  | intOverflow => "Integer literal overflow, valid range is [0, " ++ toString maxLiteral ++ "]"
  | unterminatedComment => "Unterminated block comment"

inductive Segment where
  | blank (text : List Char)
  | token (val : Token) (text : List Char)
  /-- The error stands after `read`; `dropped` runs from there through the end of the line. -/
  | fault (error : LexError) (read dropped : List Char)
  deriving DecidableEq, Repr

def Segment.text : Segment → List Char
  | blank text => text
  | token _ text => text
  | fault _ read dropped => read ++ dropped

@[simp] theorem Segment.text_blank (text : List Char) : (blank text).text = text := rfl

@[simp] theorem Segment.text_token (t : Token) (text : List Char) : (token t text).text = text := rfl

@[simp] theorem Segment.text_fault (e : LexError) (read dropped : List Char) :
    (fault e read dropped).text = read ++ dropped := rfl

/-! ## Character classes, all of them within ASCII -/

def isBlank (c : Char) : Bool := c = ' ' || c = '\t' || c = '\n' || c = '\x0c' || c = '\r'

def isWordStart (c : Char) : Bool := c.isAlpha

def isWordChar (c : Char) : Bool := c.isAlphanum || c = '_'

def digitValue (c : Char) : Nat := c.toNat - '0'.toNat

/-! ## Where a line, a comment or a number ends -/

/-- The characters through the first newline, and those after it. -/
def cutLine : List Char → List Char × List Char
  | [] => ([], [])
  | c :: cs => if c = '\n' then ([c], cs) else (c :: (cutLine cs).1, (cutLine cs).2)

/-- The characters through the first `*/`, and those after it. -/
def cutComment? : List Char → Option (List Char × List Char)
  | '*' :: '/' :: cs => some (['*', '/'], cs)
  | c :: cs => (cutComment? cs).map fun cut => (c :: cut.1, cut.2)
  | [] => none

/-- Reads digits onto `value`, for as long as the value stays within the literals.  Answers the value, the digits read,
and what follows them: at a digit if the value would have become too large. -/
def readDigits (value : Nat) : List Char → Nat × List Char × List Char
  | [] => (value, [], [])
  | c :: cs =>
    if c.isDigit ∧ 10 * value + digitValue c ≤ maxLiteral then
      let (total, digits, rest) := readDigits (10 * value + digitValue c) cs
      (total, c :: digits, rest)
    else (value, [], c :: cs)

theorem cutLine_append (cs : List Char) : (cutLine cs).1 ++ (cutLine cs).2 = cs := by
  induction cs with
  | nil => rfl
  | cons c cs ih => by_cases h : c = '\n' <;> simp [cutLine, h, ih]

theorem cutComment?_append {cs body rest : List Char} (h : cutComment? cs = some (body, rest)) : body ++ rest = cs := by
  fun_induction cutComment? cs generalizing body rest with
  | case1 cs => simp only [Option.some.injEq, Prod.mk.injEq] at h; simp [← h.1, ← h.2]
  | case2 c cs _ ih =>
    obtain ⟨cut, hcut, heq⟩ := Option.map_eq_some_iff.1 h
    simp only [Prod.mk.injEq] at heq
    simp [← heq.1, ← heq.2, ih hcut]
  | case3 => simp at h

theorem readDigits_append (value : Nat) (cs : List Char) :
    (readDigits value cs).2.1 ++ (readDigits value cs).2.2 = cs := by
  induction cs generalizing value with
  | nil => rfl
  | cons c cs ih =>
    rw [readDigits]
    split
    · exact congrArg (c :: ·) (ih _)
    · rfl

/-! ## One segment -/

/-- Gives up the line: the error stands after `read`, and `rest` is what follows. -/
def giveUp (error : LexError) (read rest : List Char) : Segment × List Char :=
  (.fault error read (cutLine rest).1, (cutLine rest).2)

/-- What makes the word `System` the keyword `System.out.println`. -/
def printlnTail : List Char := ".out.println".toList

/-- Cuts the word that begins with the letter `c`. -/
def cutWord (c : Char) (cs : List Char) : Segment × List Char :=
  let word := c :: cs.takeWhile isWordChar
  let rest := cs.dropWhile isWordChar
  let name := String.ofList word
  if name = "System" ∧ printlnTail <+: rest then
    (.token (.keyword .printlnKw) (word ++ printlnTail), rest.drop printlnTail.length)
  else match Keyword.ofWord? name with
    | some k => (.token (.keyword k) word, rest)
    | none => (.token (.ident name) word, rest)

/-- Cuts the number that begins with the digit `c`. -/
def cutNumber (c : Char) (cs : List Char) : Segment × List Char :=
  let (value, digits, rest) := readDigits (digitValue c) cs
  if rest.head?.any Char.isDigit then giveUp .intOverflow (c :: digits) rest
  else (.token (.literal value) (c :: digits), rest)

def cutSlash : List Char → Segment × List Char
  | '/' :: cs => (.blank ('/' :: '/' :: (cutLine cs).1), (cutLine cs).2)
  | '*' :: cs =>
    match cutComment? cs with
    | some (body, rest) => (.blank ('/' :: '*' :: body), rest)
    | none => (.fault .unterminatedComment ('/' :: '*' :: cs) [], [])
  | cs => giveUp (.expected '/') ['/'] cs

def cutAmpersand : List Char → Segment × List Char
  | '&' :: cs => (.token .and ['&', '&'], cs)
  | cs => giveUp (.expected '&') ['&'] cs

/-- The segment that begins at `c`, and the characters after it. -/
def cut (c : Char) (cs : List Char) : Segment × List Char :=
  if isBlank c then (.blank [c], cs)
  else if isWordStart c then cutWord c cs
  else if c.isDigit then cutNumber c cs
  else if c = '/' then cutSlash cs
  else if c = '&' then cutAmpersand cs
  else match Token.ofSign? c with
    | some t => (.token t [c], cs)
    | none => giveUp (.badChar c) [] (c :: cs)

theorem giveUp_append (error : LexError) (read rest : List Char) :
    (giveUp error read rest).1.text ++ (giveUp error read rest).2 = read ++ rest := by
  simp [giveUp, cutLine_append]

theorem cutWord_append (c : Char) (cs : List Char) : (cutWord c cs).1.text ++ (cutWord c cs).2 = c :: cs := by
  simp only [cutWord]
  split
  · rename_i h
    simp [List.prefix_iff_eq_append.1 h.2]
  · split <;> simp

theorem cutNumber_append (c : Char) (cs : List Char) : (cutNumber c cs).1.text ++ (cutNumber c cs).2 = c :: cs := by
  simp only [cutNumber]
  split <;> simp [giveUp_append, readDigits_append]

theorem cutSlash_append (cs : List Char) : (cutSlash cs).1.text ++ (cutSlash cs).2 = '/' :: cs := by
  unfold cutSlash
  split
  · simp [cutLine_append]
  · split
    · rename_i h
      simp [cutComment?_append h]
    · simp
  · simp [giveUp_append]

theorem cutAmpersand_append (cs : List Char) :
    (cutAmpersand cs).1.text ++ (cutAmpersand cs).2 = '&' :: cs := by
  unfold cutAmpersand
  split
  · rfl
  · simp [giveUp_append]

/-- A segment and what follows it are what was there. -/
theorem cut_append (c : Char) (cs : List Char) : (cut c cs).1.text ++ (cut c cs).2 = c :: cs := by
  unfold cut
  split
  · simp
  split
  · exact cutWord_append c cs
  split
  · exact cutNumber_append c cs
  split
  · rename_i h
    rw [h]; exact cutSlash_append cs
  split
  · rename_i h
    rw [h]; exact cutAmpersand_append cs
  split
  · simp
  · simp [giveUp_append]

/-! ## The whole text -/

/-- A segment begins with the character that it was cut at. -/
theorem head?_text_cut (c : Char) (cs : List Char) : (cut c cs).1.text.head? = some c := by
  unfold cut
  split
  · rfl
  split
  · simp only [cutWord]
    split
    · rfl
    · split <;> rfl
  split
  · simp only [cutNumber]
    split <;> rfl
  split
  · rename_i h
    subst h
    unfold cutSlash
    split
    · rfl
    · split <;> rfl
    · rfl
  split
  · rename_i h
    subst h
    unfold cutAmpersand
    split <;> rfl
  split
  · rfl
  · by_cases h : c = '\n' <;> simp [giveUp, cutLine, h]

theorem cut_ne_nil (c : Char) (cs : List Char) : (cut c cs).1.text ≠ [] := by
  intro h
  have := head?_text_cut c cs
  rw [h] at this
  cases this

/-- What follows a segment is shorter than what it was cut from. -/
theorem length_cut_lt (c : Char) (cs : List Char) : (cut c cs).2.length < (c :: cs).length := by
  have h := congrArg List.length (cut_append c cs)
  rw [List.length_append] at h
  have := List.length_pos_iff.2 (cut_ne_nil c cs)
  omega

/-- The segments of a text, in order. -/
def segments : List Char → List Segment
  | [] => []
  | c :: cs => (cut c cs).1 :: segments (cut c cs).2
termination_by cs => cs.length
decreasing_by exact length_cut_lt c cs

/-- Cutting a text loses nothing. -/
theorem flatMap_text_segments (cs : List Char) : (segments cs).flatMap Segment.text = cs := by
  fun_induction segments cs with
  | case1 => rfl
  | case2 c cs ih => rw [List.flatMap_cons, ih, cut_append]

end MiniJava
