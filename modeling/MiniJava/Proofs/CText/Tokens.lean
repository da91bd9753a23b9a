import MiniJava.Proofs.Token.Lexemes
/-!
# The tokens of C

C reads a text from the left, each time the longest token that stands there, and passes over white space.  Only what the
texts of units are made of is read: words, decimal numbers and the marks of C except the slash, which may begin a comment.
A text with anything else has no tokens.

What is written piece by piece, tokens and white space, is read as these tokens if no token could go on with what stands
behind it (`tokens_written`).
-/
namespace MiniJava.CText

/-! ## Tokens -/

inductive CToken where
  | word (w : String)
  | number (n : Nat)
  | mark (m : String)
  deriving DecidableEq, Repr

protected def CToken.text : CToken → List Char
  | word w => w.toList
  | number n => (toString n).toList
  | mark m => m.toList

/-- The marks of C, the longer ones first. -/
def marks : List String :=
  ["%:%:", "...", "<<=", ">>=", "->", "++", "--", "<<", ">>", "<=", ">=", "==", "!=", "&&", "||", "*=", "%=", "+=", "-=",
    "&=", "^=", "|=", "##", "<:", ":>", "<%", "%>", "%:", "[", "]", "(", ")", "\x7b", "\x7d", ".", "&", "*", "+", "-", "~",
    "!", "%", "<", ">", "^", "|", "?", ":", ";", "=", ",", "#"]

def isSpace (c : Char) : Bool := c ∈ [' ', '\t', '\n', '\x0b', '\x0c']

def isNameStart (c : Char) : Bool := isWordStart c || c = '_'

/-- What a number goes on with, were it hexadecimal or a fraction. -/
def isNumberChar (c : Char) : Bool := isWordChar c || c = '.'

/-- The number with the given decimal digits.  Leading zeros make another number in C. -/
def number? (cs : List Char) : Option CToken :=
  let n := Nat.ofDigitChars 10 cs 0
  if (toString n).toList = cs then some (.number n) else none

/-- The token that a text begins with. -/
def front? (c : Char) (cs : List Char) : Option CToken :=
  if isNameStart c then some (.word (String.ofList (c :: cs.takeWhile isWordChar)))
  else if c.isDigit then number? (c :: cs.takeWhile isNumberChar)
  else (marks.find? fun m => m.toList.isPrefixOf (c :: cs)).map .mark

/-- The tokens of a text. -/
def tokens : List Char → Option (List CToken)
  | [] => some []
  | c :: cs =>
    if isSpace c then tokens cs
    else match front? c cs with
      | some t => (tokens (cs.drop (t.text.length - 1))).map (t :: ·)
      | none => none
termination_by cs => cs.length
decreasing_by
  · simp
  · simp only [List.length_drop, List.length_cons]
    omega

/-! ## Tokens as they are written -/

/-- Whether a token has a text that is its own. -/
def CToken.proper : CToken → Bool
  | word w => w.toList.head?.any isNameStart && w.toList.all isWordChar
  | number _ => true
  | mark m => m ∈ marks

/-- Whether a token goes on with a character. -/
def CToken.takes (t : CToken) (c : Char) : Bool :=
  match t with
  | word _ => isWordChar c
  | number _ => isNumberChar c
  | mark m => marks.any fun longer => (m.toList ++ [c]).isPrefixOf longer.toList

/-- A token that is read in front of what follows it. -/
structure CToken.Apart (t : CToken) (rest : List Char) : Prop where
  proper : t.proper = true
  ends : rest.head?.any t.takes = false

theorem takeWhile_eq {p : Char → Bool} {cs rest : List Char} (hcs : ∀ c ∈ cs, p c = true)
    (hrest : rest.head?.any p = false) : (cs ++ rest).takeWhile p = cs := by
  rw [List.takeWhile_append_of_pos hcs]
  cases rest with
  | nil => exact List.append_nil cs
  | cons c rest =>
    have hc : p c = false := hrest
    rw [List.takeWhile_cons_of_neg (by simp [hc]), List.append_nil]

/-- Of the marks that a text begins with the longest is read, which is the one that does not take the character behind
it. -/
theorem find?_mark {m : String} {rest : List Char} (h : (CToken.mark m).Apart rest) :
    marks.find? (fun n => n.toList.isPrefixOf (m.toList ++ rest)) = some m := by
  have hsorted : marks.Pairwise fun a b => b.toList.length ≤ a.toList.length ∧ a ≠ b := by decide
  obtain ⟨before, after, hsplit⟩ := List.append_of_mem (of_decide_eq_true h.proper)
  rw [List.find?_eq_some_iff_append]
  -- A mark earlier in the list is no shorter: did the text begin with it, it would be `m` and the next character at least.
  refine ⟨by simp, before, after, hsplit, fun n hn => ?_⟩
  rw [hsplit, List.pairwise_append] at hsorted
  obtain ⟨hle, hne⟩ := hsorted.2.2 n hn m List.mem_cons_self
  rw [Bool.not_eq_true', ← Bool.not_eq_true, List.isPrefixOf_iff_prefix]
  intro hprefix
  obtain ⟨more, hmore⟩ := List.prefix_of_prefix_length_le (List.prefix_append m.toList rest) hprefix hle
  cases more with
  | nil => exact hne (String.toList_injective (hmore.symm.trans (List.append_nil _)))
  | cons d more =>
    rw [← hmore, List.prefix_append_right_inj] at hprefix
    obtain ⟨rest', rfl⟩ := hprefix
    have hmem : n ∈ marks := hsplit ▸ List.mem_append_left _ hn
    have htakes : (CToken.mark m).takes d = true := by
      rw [CToken.takes, List.any_eq_true]
      refine ⟨n, hmem, ?_⟩
      rw [List.isPrefixOf_iff_prefix, ← hmore]
      exact ⟨more, by simp⟩
    have hends : (CToken.mark m).takes d = false := h.ends
    rw [htakes] at hends
    cases hends

/-- How a mark begins: not as white space, a word or a number does. -/
theorem exists_mark : ∀ m ∈ marks, ∃ c cs, m.toList = c :: cs ∧ isSpace c = false ∧ isNameStart c = false ∧
    c.isDigit = false := by
  have hhead : ∀ m ∈ marks, m.toList.head?.any (fun c => !isSpace c && !isNameStart c && !c.isDigit) = true := by decide
  intro m hm
  have h := hhead m hm
  cases hcs : m.toList with
  | nil => rw [hcs] at h; cases h
  | cons c cs =>
    rw [hcs, List.head?_cons, Option.any_some] at h
    simp only [Bool.and_eq_true, Bool.not_eq_true'] at h
    exact ⟨c, cs, rfl, h.1.1, h.1.2, h.2⟩

/-- How a word begins and goes on. -/
theorem exists_nameStart {w : String} (h : (CToken.word w).proper = true) :
    ∃ c cs, w.toList = c :: cs ∧ isNameStart c = true ∧ ∀ d ∈ cs, isWordChar d = true := by
  rw [CToken.proper, Bool.and_eq_true, List.all_eq_true] at h
  obtain ⟨hstart, hchars⟩ := h
  cases hw : w.toList with
  | nil => rw [hw] at hstart; cases hstart
  | cons c cs =>
    rw [hw] at hstart hchars
    exact ⟨c, cs, rfl, hstart, fun d hd => hchars d (List.mem_cons_of_mem _ hd)⟩

theorem not_space_of_wordChar {c : Char} (h : isWordChar c = true) : isSpace c = false := by
  have hnot : [' ', '\t', '\n', '\x0b', '\x0c'].any isWordChar = false := by decide
  rw [Bool.eq_false_iff]
  intro hspace
  exact List.any_eq_false.1 hnot c (of_decide_eq_true hspace) h

theorem not_space_of_nameStart {c : Char} (h : isNameStart c = true) : isSpace c = false := by
  rw [isNameStart, Bool.or_eq_true, decide_eq_true_eq] at h
  rcases h with h | rfl
  · exact not_space_of_wordChar (wordChar_of_start h)
  · decide

theorem not_nameStart_of_digit {c : Char} (h : c.isDigit = true) : isNameStart c = false := by
  rw [isNameStart, not_start_of_digit h, Bool.false_or, decide_eq_false_iff_not]
  rintro rfl
  cases h

theorem number?_digits (n : Nat) : number? (toString n).toList = some (.number n) := by
  have hchars : (toString n).toList = Nat.toDigits 10 n := Nat.toList_repr
  have hvalue : Nat.ofDigitChars 10 (toString n).toList 0 = n := by rw [hchars, Nat.ofDigitChars_ten_toDigits]
  rw [number?]
  simp only [hvalue, if_true]

/-! ## Reading tokens one by one -/

theorem tokens_space {c : Char} (h : isSpace c = true) (cs : List Char) : tokens (c :: cs) = tokens cs := by
  rw [tokens, if_pos h]

/-- **A token is read in front of what it does not take.** -/
theorem tokens_text_append {t : CToken} {rest : List Char} (h : t.Apart rest) :
    tokens (t.text ++ rest) = (tokens rest).map (t :: ·) := by
  have hread : ∀ {c : Char} {cs : List Char}, t.text = c :: cs → isSpace c = false → front? c (cs ++ rest) = some t →
      tokens (t.text ++ rest) = (tokens rest).map (t :: ·) := fun {c cs} htext hspace hfront => by
    rw [htext, List.cons_append, tokens, if_neg (by simp [hspace]), hfront]
    simp only [htext, List.length_cons, Nat.add_sub_cancel, List.drop_left]
  cases t with
  | word w =>
    obtain ⟨c, cs, hw, hc, hcs⟩ := exists_nameStart h.proper
    refine hread hw (not_space_of_nameStart hc) ?_
    rw [front?, if_pos hc, takeWhile_eq hcs h.ends, ← hw, String.ofList_toList]
  | number n =>
    obtain ⟨c, cs, hn, hdigits, -⟩ := exists_digits n
    have hc := hdigits c List.mem_cons_self
    have hcs : ∀ d ∈ cs, isNumberChar d = true := fun d hd => by
      rw [isNumberChar, wordChar_of_digit (hdigits d (List.mem_cons_of_mem _ hd)), Bool.true_or]
    refine hread hn (not_space_of_wordChar (wordChar_of_digit hc)) ?_
    rw [front?, if_neg (by simp [not_nameStart_of_digit hc]), if_pos hc, takeWhile_eq hcs h.ends, ← hn, number?_digits]
  | mark m =>
    obtain ⟨c, cs, hm, hspace, hstart, hdigit⟩ := exists_mark m (of_decide_eq_true h.proper)
    refine hread hm hspace ?_
    rw [front?, if_neg (by simp [hstart]), if_neg (by simp [hdigit]), ← List.cons_append, ← hm, find?_mark h,
      Option.map_some]

/-! ## Pieces of text -/

/-- A token or a character of white space. -/
inductive Piece where
  | token (t : CToken)
  | space (c : Char)

/-- Whether a token may stand in front of another one with nothing between them. -/
def CToken.fits : CToken → CToken → Bool
  | word _, mark _ => true
  | number _, mark m => m.toList.head? ≠ some '.'
  | mark m, mark n => !n.toList.head?.any (mark m).takes
  | mark _, _ => true
  | _, _ => false

namespace Piece

protected def text : Piece → List Char
  | token t => t.text
  | space c => [c]

def token? : Piece → Option CToken
  | token t => some t
  | space _ => none

def proper : Piece → Bool
  | token t => t.proper
  | space c => isSpace c

def fits : Piece → Piece → Bool
  | token t, token u => t.fits u
  | _, _ => true

end Piece

def written (ps : List Piece) : List Char := ps.flatMap Piece.text

def tokensOf (ps : List Piece) : List CToken := ps.filterMap Piece.token?

/-- Whether each piece may stand in front of the next one. -/
def joined : List Piece → Bool
  | p :: q :: ps => p.fits q && joined (q :: ps)
  | _ => true

theorem written_cons (p : Piece) (ps : List Piece) : written (p :: ps) = p.text ++ written ps := List.flatMap_cons

theorem written_append (ps qs : List Piece) : written (ps ++ qs) = written ps ++ written qs := List.flatMap_append

theorem tokensOf_append (ps qs : List Piece) : tokensOf (ps ++ qs) = tokensOf ps ++ tokensOf qs := List.filterMap_append

theorem joined_of_cons {p : Piece} {ps : List Piece} (h : joined (p :: ps) = true) : joined ps = true := by
  cases ps with
  | nil => rfl
  | cons q ps =>
    rw [joined, Bool.and_eq_true] at h
    exact h.2

/-- There is neither white space in a mark nor a character of a word. -/
theorem not_wordChar_of_mark : ∀ m ∈ marks, ∀ c ∈ m.toList, isSpace c = false ∧ isWordChar c = false := by
  have hall : ∀ m ∈ marks, m.toList.any (fun c => isSpace c || isWordChar c) = false := by decide
  intro m hm c hc
  simpa using List.any_eq_false.1 (hall m hm) c hc

/-- A mark goes on with a character of a mark. -/
theorem not_wordChar_of_takes {m : String} {c : Char} (h : (CToken.mark m).takes c = true) :
    isSpace c = false ∧ isWordChar c = false := by
  obtain ⟨longer, hlonger, hprefix⟩ := List.any_eq_true.1 h
  refine not_wordChar_of_mark longer hlonger c ((List.isPrefixOf_iff_prefix.1 hprefix).subset ?_)
  exact List.mem_append_right _ (List.mem_singleton_self c)

theorem wordChar_of_nameStart {c : Char} (h : isNameStart c = true) : isWordChar c = true := by
  rw [isNameStart, Bool.or_eq_true] at h
  rcases h with h | h
  · exact wordChar_of_start h
  · rw [isWordChar, h, Bool.or_true]

/-- No token goes on with white space. -/
theorem takes_space {c : Char} (h : isSpace c = true) (t : CToken) : t.takes c = false := by
  have hword : isWordChar c = false := Bool.eq_false_iff.2 fun hword => by
    rw [not_space_of_wordChar hword] at h
    cases h
  cases t with
  | word w => exact hword
  | number n =>
    have hpoint : c ≠ '.' := by
      rintro rfl
      exact absurd h (by decide)
    rw [CToken.takes, isNumberChar, hword, decide_eq_false hpoint, Bool.or_false]
  | mark m =>
    refine Bool.eq_false_iff.2 fun htakes => ?_
    rw [(not_wordChar_of_takes htakes).1] at h
    cases h

/-- Marks go on with no character of a word. -/
theorem takes_wordChar {c : Char} (h : isWordChar c = true) (m : String) : (CToken.mark m).takes c = false := by
  refine Bool.eq_false_iff.2 fun htakes => ?_
  rw [(not_wordChar_of_takes htakes).2] at h
  cases h

/-- A token that fits in front of a piece does not go on with it. -/
theorem ends_of_fits {t : CToken} {q : Piece} (hq : q.proper = true) (h : (Piece.token t).fits q = true) (cs : List Char) :
    (q.text ++ cs).head?.any t.takes = false := by
  match t, q with
  | t, .space c => exact takes_space hq t
  | .word w, .token (.mark n) =>
    obtain ⟨c, ds, hn, -⟩ := exists_mark n (of_decide_eq_true hq)
    have hc := (not_wordChar_of_mark n (of_decide_eq_true hq) c (hn ▸ List.mem_cons_self)).2
    rw [Piece.text, CToken.text, hn]
    exact hc
  | .number k, .token (.mark n) =>
    obtain ⟨c, ds, hn, -⟩ := exists_mark n (of_decide_eq_true hq)
    have hc := (not_wordChar_of_mark n (of_decide_eq_true hq) c (hn ▸ List.mem_cons_self)).2
    have hpoint : n.toList.head? ≠ some '.' := of_decide_eq_true h
    rw [hn, List.head?_cons, ne_eq, Option.some.injEq] at hpoint
    rw [Piece.text, CToken.text, hn]
    show (isWordChar c || decide (c = '.')) = false
    rw [hc, decide_eq_false hpoint, Bool.or_false]
  | .mark m, .token (.mark n) =>
    obtain ⟨c, ds, hn, -⟩ := exists_mark n (of_decide_eq_true hq)
    have hc : (!n.toList.head?.any (CToken.mark m).takes) = true := h
    rw [Bool.not_eq_true', hn] at hc
    rw [Piece.text, CToken.text, hn]
    exact hc
  | .mark m, .token (.word w) =>
    obtain ⟨c, ds, hw, hc, -⟩ := exists_nameStart hq
    rw [Piece.text, CToken.text, hw]
    exact takes_wordChar (wordChar_of_nameStart hc) m
  | .mark m, .token (.number n) =>
    obtain ⟨c, ds, hn, hdigits, -⟩ := exists_digits n
    rw [Piece.text, CToken.text, hn]
    exact takes_wordChar (wordChar_of_digit (hdigits c List.mem_cons_self)) m

/-- **A text that is written piece by piece has the tokens among the pieces**, if each piece may stand where it does. -/
theorem tokens_written : ∀ {ps : List Piece}, (∀ p ∈ ps, p.proper = true) → joined ps = true →
    tokens (written ps) = some (tokensOf ps)
  | [], _, _ => by
    show tokens [] = some []
    rw [tokens]
  | .space c :: ps, hproper, hjoined => by
    obtain ⟨hc, hps⟩ := List.forall_mem_cons.1 hproper
    show tokens (c :: written ps) = some (tokensOf ps)
    rw [tokens_space hc, tokens_written hps (joined_of_cons hjoined)]
  | .token t :: ps, hproper, hjoined => by
    obtain ⟨ht, hps⟩ := List.forall_mem_cons.1 hproper
    have hends : (written ps).head?.any t.takes = false := by
      cases ps with
      | nil => rfl
      | cons q ps =>
        rw [joined, Bool.and_eq_true] at hjoined
        exact ends_of_fits (hps q List.mem_cons_self) hjoined.1 (written ps)
    show tokens (t.text ++ written ps) = some (t :: tokensOf ps)
    rw [tokens_text_append ⟨ht, hends⟩, tokens_written hps (joined_of_cons hjoined), Option.map_some]

end MiniJava.CText
