import MiniJava.Proofs.Source.Chars
import MiniJava.Proofs.Source.Places
import MiniJava.Proofs.Token.Segments
/-!
# The lexer as a machine

The lexer goes over its text in a loop, with a phase that says what it is in the middle of.  Not every pass of the loop
reads a character: the first digit of a number only changes the phase, a sign is emitted a pass after it has been read, and
the end of the text ends a comment.  Still every pass comes closer to an answer (`Lexer.measure_lt_of_again`), and the
answers are the items of the stream, one after another, and none after the last (`Lexer.yields_ofSource`).
-/
namespace MiniJava

/-! ## One pass -/

/-- What the lexer is in the middle of. -/
inductive Phase where
  | start
  /-- The rest of the line is given up. -/
  | fault
  /-- A sign has been read. -/
  | sign (t : Token)
  | ampersand
  | slash
  | lineComment
  | blockComment
  /-- A comment in which a star has just been read. -/
  | blockCommentStar
  | number (value : Nat)
  | word (text : List Char)

/-- What a pass of the loop does. -/
inductive Move where
  /-- Reads a character. -/
  | read (phase : Phase)
  /-- Reads nothing. -/
  | turn (phase : Phase)
  /-- Answers a token, for which `more` characters are still to be read. -/
  | emit (t : Token) (more : Nat)
  | refuse (e : LexError)
  /-- Answers that there is nothing any more. -/
  | stop

namespace Phase

/-- What a token or a comment begins with. -/
def opening (c : Char) : Move :=
  match Token.ofSign? c with
  | some t => .read (.sign t)
  | none =>
    if c = '&' then .read .ampersand
    else if c = '/' then .read .slash
    else if isWordStart c then .read (.word [c])
    else if c.isDigit then .turn (.number 0)
    else if isBlank c then .read .start
    else .refuse (.badChar c)

/-- The token that a word makes with what comes behind it. -/
def finish (word rest : List Char) : Move :=
  if String.ofList word = "System" ∧ printlnTail <+: rest then .emit (.keyword .printlnKw) printlnTail.length
  else match Keyword.ofWord? (String.ofList word) with
    | some k => .emit (.keyword k) 0
    | none => .emit (.ident (String.ofList word)) 0

/-- What is done in a phase, by the characters that have not been read. -/
def move : Phase → List Char → Move
  | fault, [] => .stop
  | fault, c :: _ => .read (if c = '\n' then start else fault)
  | start, [] => .stop
  | start, c :: _ => opening c
  | sign t, _ => .emit t 0
  | ampersand, c :: _ => if c = '&' then .read (sign .and) else .refuse (.expected '&')
  | ampersand, [] => .refuse (.expected '&')
  | slash, c :: _ =>
    if c = '/' then .read lineComment else if c = '*' then .read blockComment else .refuse (.expected '/')
  | slash, [] => .refuse (.expected '/')
  | lineComment, [] => .turn start
  | lineComment, c :: _ => .read (if c = '\n' then start else lineComment)
  | blockComment, c :: _ => .read (if c = '*' then blockCommentStar else blockComment)
  | blockCommentStar, c :: _ =>
    .read (if c = '/' then start else if c = '*' then blockCommentStar else blockComment)
  | blockComment, [] | blockCommentStar, [] => .refuse .unterminatedComment
  | number v, [] => .emit (.literal v) 0
  | number v, c :: _ =>
    if c.isDigit then
      if 10 * v + digitValue c ≤ maxLiteral then .read (number (10 * v + digitValue c)) else .refuse .intOverflow
    else .emit (.literal v) 0
  | word w, [] => finish w []
  | word w, c :: cs => if isWordChar c then .read (word (w ++ [c])) else finish w (c :: cs)

/-- How many passes that read nothing may follow. -/
def rank : Phase → Nat
  | lineComment => 2
  | start => 1
  | _ => 0

end Phase

/-- A lexer on its way through a text. -/
structure Lexer where
  phase : Phase
  /-- The characters that have not been read, each with its position. -/
  rest : List (Char × Position)
  eof : Position
  /-- Where the next token begins. -/
  start : Position
  /-- Where the last character that was read stands. -/
  last : Position

namespace Lexer

/-- The position of the next character. -/
def here (l : Lexer) : Position := (l.rest.head?.map Prod.snd).getD l.eof

/-- Reads a character, if there is one. -/
def bump (l : Lexer) : Lexer :=
  match l.rest with
  | [] => l
  | (_, p) :: rest => { l with rest, last := p }

def skip (l : Lexer) : Nat → Lexer
  | 0 => l
  | n + 1 => l.bump.skip n

/-- Between tokens the next one may begin anywhere. -/
def mark (l : Lexer) : Lexer :=
  match l.phase with
  | .start => { l with start := l.here }
  | _ => l

/-- What a pass comes to: to the next one, or to an answer. -/
inductive Pass where
  | again (l : Lexer)
  | answer (a : Except LexError (Option Token)) (l : Lexer)

def perform (l : Lexer) : Move → Pass
  | .read phase => .again (bump { l with phase })
  | .turn phase => .again { l with phase }
  | .emit t more => .answer (.ok (some t)) (l.skip more)
  | .refuse e => .answer (.error e) l
  | .stop => .answer (.ok none) l

def pass (l : Lexer) : Pass := l.mark.perform (l.phase.move (l.rest.map Prod.fst))

/-- What becomes smaller with every pass. -/
def measure (l : Lexer) : Nat := 3 * l.rest.length + l.phase.rank

end Lexer

namespace Phase

variable {phase phase' : Phase} {cs : List Char}

theorem exists_finish (word rest : List Char) : ∃ t more, finish word rest = .emit t more := by
  unfold finish
  split
  · exact ⟨_, _, rfl⟩
  · split <;> exact ⟨_, _, rfl⟩

/-- **Only a first digit and the end of a comment at the end of the text are not read.** -/
theorem eq_of_turn (h : phase.move cs = .turn phase') :
    phase = .start ∧ phase' = .number 0 ∨ phase = .lineComment ∧ phase' = .start := by
  cases phase with
  | lineComment =>
    cases cs with
    | nil => exact .inr ⟨rfl, (Move.turn.inj h).symm⟩
    | cons c cs => cases h
  | start =>
    cases cs with
    | nil => cases h
    | cons c cs =>
      simp only [move, opening] at h
      split at h
      · cases h
      · split_ifs at h
        exact .inl ⟨rfl, (Move.turn.inj h).symm⟩
  | word w =>
    obtain ⟨t, more, hemit⟩ := exists_finish w cs
    cases cs with
    | nil => cases hemit.symm.trans h
    | cons c cs =>
      simp only [move] at h
      split_ifs at h
      cases hemit.symm.trans h
  | number v =>
    cases cs with
    | nil => cases h
    | cons c cs =>
      simp only [move] at h
      split_ifs at h
  | slash =>
    cases cs with
    | nil => cases h
    | cons c cs =>
      simp only [move] at h
      split_ifs at h
  | ampersand =>
    cases cs with
    | nil => cases h
    | cons c cs =>
      simp only [move] at h
      split_ifs at h
  | _ => cases cs <;> cases h

/-- Where nothing is read, fewer such passes follow. -/
theorem rank_lt_of_turn (h : phase.move cs = .turn phase') : phase'.rank < phase.rank := by
  rcases eq_of_turn h with ⟨rfl, rfl⟩ | ⟨rfl, rfl⟩ <;> decide

/-- Nothing is read at the end of the text. -/
theorem ne_nil_of_read (h : phase.move cs = .read phase') : cs ≠ [] := by
  rintro rfl
  cases phase with
  | word w =>
    obtain ⟨t, more, hemit⟩ := exists_finish w []
    cases hemit.symm.trans h
  | _ => cases h

theorem rank_le (phase : Phase) : phase.rank ≤ 2 := by
  unfold rank
  split <;> decide

end Phase

namespace Lexer

theorem mark_rest (l : Lexer) : l.mark.rest = l.rest := by
  unfold mark
  split <;> rfl

theorem length_bump (l : Lexer) (h : l.rest ≠ []) : l.bump.rest.length + 1 = l.rest.length ∧ l.bump.phase = l.phase := by
  unfold bump
  split
  · contradiction
  · rename_i hrest
    exact ⟨by rw [hrest]; rfl, rfl⟩

/-- **Every pass comes closer to an answer**: it reads a character, or it leaves fewer passes that read nothing. -/
theorem measure_lt_of_again {l l' : Lexer} (h : l.pass = .again l') : l'.measure < l.measure := by
  unfold pass perform at h
  unfold measure
  split at h
  · rename_i phase hmove
    cases h
    have hrest : l.rest ≠ [] := fun hnil => Phase.ne_nil_of_read hmove (by rw [hnil]; rfl)
    obtain ⟨hlength, hphase⟩ := length_bump ⟨phase, l.mark.rest, l.mark.eof, l.mark.start, l.mark.last⟩
      (by rw [mark_rest]; exact hrest)
    have hread := hlength.trans (congrArg List.length l.mark_rest)
    have := phase.rank_le
    rw [hphase]
    dsimp only
    omega
  · rename_i hmove
    cases h
    have := Phase.rank_lt_of_turn hmove
    rw [mark_rest]
    dsimp only
    omega
  · cases h
  · cases h
  · cases h

/-! ## Answers -/

/-- What the loop comes to. -/
def lex (l : Lexer) : Except LexError (Option Token) × Lexer :=
  match _hpass : l.pass with
  | .again l' => l'.lex
  | .answer a l' => (a, l')
termination_by l.measure
decreasing_by exact measure_lt_of_again ‹_›

/-- The loop cut short after so many passes. -/
def lexWithin : Nat → Lexer → Option (Except LexError (Option Token) × Lexer)
  | 0, _ => none
  | n + 1, l =>
    match l.pass with
    | .again l' => lexWithin n l'
    | .answer a l' => some (a, l')

theorem lex_of_again {l l' : Lexer} (h : l.pass = .again l') : l.lex = l'.lex := by
  rw [lex]
  split
  · rename_i h'
    cases h.symm.trans h'
    rfl
  · rename_i h'
    cases h.symm.trans h'

theorem lex_of_answer {l l' : Lexer} {a : Except LexError (Option Token)} (h : l.pass = .answer a l') : l.lex = (a, l') := by
  rw [lex]
  split
  · rename_i h'
    cases h.symm.trans h'
  · rename_i h'
    cases h.symm.trans h'
    rfl

/-- **The loop ends in time.** -/
theorem lexWithin_of_measure_lt : ∀ {n : Nat} {l : Lexer}, l.measure < n → l.lexWithin n = some l.lex
  | 0, _, h => absurd h (Nat.not_lt_zero _)
  | n + 1, l, h => by
    unfold lexWithin
    cases hpass : l.pass with
    | again l' =>
      have hlower := measure_lt_of_again hpass
      rw [lex_of_again hpass]
      exact lexWithin_of_measure_lt (by omega)
    | answer a l' => rw [lex_of_answer hpass]

/-- The next item, if there is one.  After a fault the rest of the line is given up. -/
def next (l : Lexer) : Option Item × Lexer :=
  match l.lex with
  | (.ok none, l) => (none, l)
  | (.ok (some t), l) => (some (.ok ⟨t, l.start, l.last.advance⟩), { l with phase := .start })
  | (.error e, l) => (some (.error ⟨e, Span.single l.here⟩), { l with phase := .fault })

/-- What the call after `n` others answers. -/
def nth (l : Lexer) : Nat → Option Item
  | 0 => l.next.1
  | n + 1 => l.next.2.nth n

/-- The lexer before the first call. -/
def ofSource (s : Source) : Lexer := ⟨.start, s.glyphs, s.eof, .first, .first⟩

/-! ## What the calls answer -/

/-- **The calls answer these items, one after another**, and after them nothing, for ever. -/
def Yields (l : Lexer) (items : List Item) : Prop := ∀ n, l.nth n = items[n]?

namespace Yields

variable {l l' : Lexer} {items : List Item} {item : Item}

theorem of_lex_eq (h : l.lex = l'.lex) (hy : l'.Yields items) : l.Yields items := by
  have hnext : l.next = l'.next := by
    unfold next
    rw [h]
  intro n
  rw [← hy n]
  cases n with
  | zero => exact congrArg Prod.fst hnext
  | succ n => exact congrArg (nth · n) (congrArg Prod.snd hnext)

theorem cons (h : l.next = (some item, l')) (hy : l'.Yields items) : l.Yields (item :: items) := by
  intro n
  cases n with
  | zero => exact congrArg Prod.fst h
  | succ n => exact (congrArg (nth · n) (congrArg Prod.snd h)).trans (hy n)

theorem nil (h : l.next = (none, l')) (h' : l'.next = (none, l')) : l.Yields [] := by
  have hstays : ∀ n, l'.nth n = none := by
    intro n
    induction n with
    | zero => exact congrArg Prod.fst h'
    | succ n ih => exact (congrArg (nth · n) (congrArg Prod.snd h')).trans ih
  intro n
  cases n with
  | zero => exact congrArg Prod.fst h
  | succ n => exact (congrArg (nth · n) (congrArg Prod.snd h)).trans (hstays n)

end Yields

open Source (placed map_fst_placed)

section

variable {phase phase' : Phase} {p e s q : Position} {c : Char} {cs : List Char}

/-- A character is read in the middle of something. -/
theorem lex_read (h : phase.move (c :: cs) = .read phase') (hstart : phase ≠ .start) :
    lex ⟨phase, placed p (c :: cs), e, s, q⟩ = lex ⟨phase', placed (p.past c) cs, e, s, p⟩ := by
  refine lex_of_again ?_
  unfold pass mark
  split
  · contradiction
  · dsimp only [placed]
    rw [List.map_cons, map_fst_placed, h]
    rfl

theorem lex_begin (h : Phase.opening c = .read phase') :
    lex ⟨.start, placed p (c :: cs), e, s, q⟩ = lex ⟨phase', placed (p.past c) cs, e, p, p⟩ := by
  refine lex_of_again ?_
  unfold pass mark
  dsimp only [placed]
  rw [List.map_cons, map_fst_placed, Phase.move, h]
  rfl

/-- What is read in the middle of something is the end of it. -/
theorem lex_answer {a : Except LexError (Option Token)} {l' : Lexer} (hstart : phase ≠ .start)
    (h : perform ⟨phase, placed p cs, e, s, q⟩ (phase.move cs) = .answer a l') :
    lex ⟨phase, placed p cs, e, s, q⟩ = (a, l') := by
  refine lex_of_answer ?_
  unfold pass mark
  split
  · contradiction
  · dsimp only
    rw [map_fst_placed, h]

end

/-! ## Lines and comments -/

section

variable {e s : Position}

theorem lex_lineComment : ∀ (cs : List Char) (p q : Position), ∃ q',
    lex ⟨.lineComment, placed p cs, e, s, q⟩ = lex ⟨.start, placed (p.walk (cutLine cs).1) (cutLine cs).2, e, s, q'⟩
  | [], p, q => ⟨q, lex_of_again rfl⟩
  | c :: cs, p, q => by
    unfold cutLine
    by_cases hc : c = '\n'
    · rw [if_pos hc]
      exact ⟨p, lex_read (congrArg Move.read (if_pos hc)) (by rintro ⟨⟩)⟩
    · have hread : lex ⟨.lineComment, placed p (c :: cs), e, s, q⟩ = lex ⟨.lineComment, placed (p.past c) cs, e, s, p⟩ :=
        lex_read (congrArg Move.read (if_neg hc)) (by rintro ⟨⟩)
      rw [if_neg hc, hread]
      exact lex_lineComment cs (p.past c) p

/-- A line that is given up ends at its newline, or it is all that is left. -/
theorem lex_fault : ∀ (cs : List Char) (p q : Position), ∃ q',
    lex ⟨.fault, placed p cs, e, s, q⟩ = lex ⟨.start, placed (p.walk (cutLine cs).1) (cutLine cs).2, e, s, q'⟩ ∨
      (cutLine cs).2 = [] ∧ lex ⟨.fault, placed p cs, e, s, q⟩ = (.ok none, ⟨.fault, [], e, s, q'⟩)
  | [], p, q => ⟨q, .inr ⟨rfl, lex_of_answer rfl⟩⟩
  | c :: cs, p, q => by
    unfold cutLine
    by_cases hc : c = '\n'
    · rw [if_pos hc]
      exact ⟨p, .inl (lex_read (congrArg Move.read (if_pos hc)) (by rintro ⟨⟩))⟩
    · have hread : lex ⟨.fault, placed p (c :: cs), e, s, q⟩ = lex ⟨.fault, placed (p.past c) cs, e, s, p⟩ :=
        lex_read (congrArg Move.read (if_neg hc)) (by rintro ⟨⟩)
      rw [if_neg hc, hread]
      exact lex_fault cs (p.past c) p

/-- What becomes of a comment that begins at `p`, by where it is cut off. -/
def Closes (e s p : Position) (l : Lexer) : Option (List Char × List Char) → Prop
  | some (body, rest) => ∃ q, l.lex = lex ⟨.start, placed (p.walk body) rest, e, s, q⟩
  | none => ∃ phase q, l.lex = (.error .unterminatedComment, ⟨phase, [], e, s, q⟩)

theorem Closes.cons {p : Position} {c : Char} {l : Lexer} {cut : Option (List Char × List Char)}
    (h : Closes e s (p.past c) l cut) : Closes e s p l (cut.map fun cut => (c :: cut.1, cut.2)) := by
  cases cut with
  | none => exact h
  | some cut => exact h

theorem Closes.of_lex_eq {p : Position} {l l' : Lexer} {cut : Option (List Char × List Char)} (h : Closes e s p l' cut)
    (heq : l.lex = l'.lex) : Closes e s p l cut := by
  unfold Closes at h ⊢
  rw [heq]
  exact h

theorem cutComment?_cons {c : Char} {cs : List Char} (h : c = '*' → cs.head? ≠ some '/') :
    cutComment? (c :: cs) = (cutComment? cs).map fun cut => (c :: cut.1, cut.2) := by
  rw [cutComment?]
  rintro cs' rfl rfl
  exact h rfl rfl

/-- **A comment ends where it is cut off**, also if a star has just been read. -/
theorem closes_blockComment : ∀ (cs : List Char) (p q : Position),
    Closes e s p ⟨.blockComment, placed p cs, e, s, q⟩ (cutComment? cs) ∧
      Closes e s p ⟨.blockCommentStar, placed (p.past '*') cs, e, s, q⟩ (cutComment? ('*' :: cs))
  | [], p, q => ⟨⟨_, _, lex_answer nofun rfl⟩, ⟨_, _, lex_answer nofun rfl⟩⟩
  | c :: cs, p, q => by
    by_cases hc : c = '*'
    · subst hc
      have hread : lex ⟨.blockComment, placed p ('*' :: cs), e, s, q⟩ =
          lex ⟨.blockCommentStar, placed (p.past '*') cs, e, s, p⟩ := lex_read rfl nofun
      have hread' : lex ⟨.blockCommentStar, placed (p.past '*') ('*' :: cs), e, s, q⟩ =
          lex ⟨.blockCommentStar, placed ((p.past '*').past '*') cs, e, s, p.past '*'⟩ := lex_read rfl nofun
      rw [@cutComment?_cons '*' ('*' :: cs) fun _ h => absurd (Option.some.inj h) (by decide)]
      exact ⟨(closes_blockComment cs p p).2.of_lex_eq hread, ((closes_blockComment cs _ _).2.of_lex_eq hread').cons⟩
    · have hopen := @cutComment?_cons c cs fun h => absurd h hc
      have hmove : Phase.blockComment.move (c :: cs) = .read .blockComment := congrArg Move.read (if_neg hc)
      have hread : lex ⟨.blockComment, placed p (c :: cs), e, s, q⟩ = lex ⟨.blockComment, placed (p.past c) cs, e, s, p⟩ :=
        lex_read hmove nofun
      refine ⟨hopen ▸ ((closes_blockComment cs _ _).1.of_lex_eq hread).cons, ?_⟩
      by_cases hslash : c = '/'
      · subst hslash
        exact ⟨_, lex_read rfl nofun⟩
      · -- the star was no end, and the comment goes on as it did before
        have hmove' : Phase.blockCommentStar.move (c :: cs) = .read .blockComment := by
          rw [Phase.move, if_neg hslash, if_neg hc]
        have hread' : lex ⟨.blockCommentStar, placed (p.past '*') (c :: cs), e, s, q⟩ =
            lex ⟨.blockComment, placed ((p.past '*').past c) cs, e, s, p.past '*'⟩ := lex_read hmove' nofun
        rw [@cutComment?_cons '*' (c :: cs) fun _ h => hslash (Option.some.inj h), hopen]
        exact ((closes_blockComment cs _ _).1.of_lex_eq hread').cons.cons

/-! ## Numbers and words

What has been read is all on one line, so that the position behind it is the one next to the last character. -/

/-- A character that leaves its line at the next column. -/
def Plain (c : Char) : Prop := c ≠ '\n' ∧ c ≠ '\t'

theorem Plain.past {c : Char} (h : Plain c) (p : Position) : p.past c = p.advance := Position.past_of_plain h.1 h.2

theorem plain_of_printlnTail : ∀ c ∈ printlnTail, Plain c := by
  have hall : printlnTail.all (fun c => c != '\n' && c != '\t') = true := by decide
  intro c hc
  have hplain := List.all_eq_true.1 hall c hc
  rw [Bool.and_eq_true, bne_iff_ne, bne_iff_ne] at hplain
  exact hplain

theorem plain_of_wordChar {c : Char} (h : isWordChar c = true) : Plain c :=
  ⟨fun hc => absurd h (by rw [hc]; decide), fun hc => absurd h (by rw [hc]; decide)⟩

/-- Digits are read as far as `readDigits` reads them. -/
theorem lex_digits : ∀ (cs : List Char) (v : Nat) (p q : Position), q.advance = p → ∃ q',
    q'.advance = p.walk (readDigits v cs).2.1 ∧
    lex ⟨.number v, placed p cs, e, s, q⟩ =
      (if (readDigits v cs).2.2.head?.any Char.isDigit then .error .intOverflow
        else .ok (some (.literal (readDigits v cs).1)),
        ⟨.number (readDigits v cs).1, placed (p.walk (readDigits v cs).2.1) (readDigits v cs).2.2, e, s, q'⟩)
  | [], v, p, q, hq => ⟨q, hq, lex_answer nofun rfl⟩
  | c :: cs, v, p, q, hq => by
    unfold readDigits
    by_cases hdigit : c.isDigit = true
    · by_cases hle : 10 * v + digitValue c ≤ maxLiteral
      · have hmove : (Phase.number v).move (c :: cs) = .read (.number (10 * v + digitValue c)) := by
          rw [Phase.move, if_pos hdigit, if_pos hle]
        have hread : lex ⟨.number v, placed p (c :: cs), e, s, q⟩ =
            lex ⟨.number (10 * v + digitValue c), placed (p.past c) cs, e, s, p⟩ := lex_read hmove nofun
        rw [if_pos ⟨hdigit, hle⟩, hread]
        exact lex_digits cs _ _ _ ((plain_of_wordChar (wordChar_of_digit hdigit)).past p).symm
      · have hmove : (Phase.number v).move (c :: cs) = .refuse .intOverflow := by
          rw [Phase.move, if_pos hdigit, if_neg hle]
        rw [if_neg fun h => hle h.2]
        refine ⟨q, hq, lex_answer nofun ?_⟩
        rw [hmove]
        simp [perform, hdigit]
    · have hmove : (Phase.number v).move (c :: cs) = .emit (.literal v) 0 := by
        rw [Phase.move, if_neg hdigit]
      rw [if_neg fun h => hdigit h.1]
      refine ⟨q, hq, lex_answer nofun ?_⟩
      rw [hmove]
      simp [perform, hdigit, skip]

/-- Word characters are read as far as there are any. -/
theorem lex_wordChars : ∀ (cs w : List Char) (p q : Position), q.advance = p → ∃ q',
    q'.advance = p.walk (cs.takeWhile isWordChar) ∧
    lex ⟨.word w, placed p cs, e, s, q⟩ =
      lex ⟨.word (w ++ cs.takeWhile isWordChar), placed (p.walk (cs.takeWhile isWordChar)) (cs.dropWhile isWordChar), e, s, q'⟩
  | [], w, p, q, hq => ⟨q, hq, by rw [List.takeWhile_nil, List.append_nil]; rfl⟩
  | c :: cs, w, p, q, hq => by
    by_cases hc : isWordChar c = true
    · have hread : lex ⟨.word w, placed p (c :: cs), e, s, q⟩ = lex ⟨.word (w ++ [c]), placed (p.past c) cs, e, s, p⟩ :=
        lex_read (if_pos hc) nofun
      obtain ⟨q', hq', hlex⟩ := lex_wordChars cs (w ++ [c]) (p.past c) p ((plain_of_wordChar hc).past p).symm
      rw [hread, List.takeWhile_cons_of_pos hc, List.dropWhile_cons_of_pos hc]
      rw [List.append_assoc, List.singleton_append] at hlex
      exact ⟨q', hq', hlex⟩
    · rw [List.takeWhile_cons_of_neg hc, List.dropWhile_cons_of_neg hc, List.append_nil]
      exact ⟨q, hq, rfl⟩

theorem move_word_of_end {w cs : List Char} (h : cs.head?.any isWordChar = false) :
    (Phase.word w).move cs = Phase.finish w cs := by
  cases cs with
  | nil => rfl
  | cons c cs =>
    have hc : isWordChar c = false := h
    rw [Phase.move, if_neg (Bool.eq_false_iff.1 hc)]

/-- Characters that were looked at before are read all at once. -/
theorem skip_placed : ∀ {xs ys : List Char} {phase : Phase} {p q : Position}, (∀ c ∈ xs, Plain c) → q.advance = p → ∃ q',
    q'.advance = p.walk xs ∧ skip ⟨phase, placed p (xs ++ ys), e, s, q⟩ xs.length = ⟨phase, placed (p.walk xs) ys, e, s, q'⟩
  | [], _, _, _, q, _, hq => ⟨q, hq, rfl⟩
  | c :: xs, ys, phase, p, q, hplain, _ => by
    obtain ⟨hc, hxs⟩ := List.forall_mem_cons.1 hplain
    exact @skip_placed xs ys phase (p.past c) p hxs (hc.past p).symm

end

/-! ## Segments -/

/-- **What the lexer comes to in a segment that begins at `p`**, before the text `rest`: to the beginning of what follows a
blank, to a token, or to a fault, with the rest of its line still to be given up. -/
def Reaches (e p : Position) (l : Lexer) : Segment × List Char → Prop
  | (.blank text, rest) => ∃ s q, l.lex = lex ⟨.start, placed (p.walk text) rest, e, s, q⟩
  | (.token t text, rest) => ∃ phase q, q.advance = p.walk text ∧
      l.lex = (.ok (some t), ⟨phase, placed (p.walk text) rest, e, p, q⟩)
  | (.fault error read dropped, rest) => ∃ phase s q ahead, cutLine ahead = (dropped, rest) ∧
      l.lex = (.error error, ⟨phase, placed (p.walk read) ahead, e, s, q⟩)

section

variable {e p s q : Position}

theorem Reaches.of_lex_eq {l l' : Lexer} {cut : Segment × List Char} (h : Reaches e p l' cut) (heq : l.lex = l'.lex) :
    Reaches e p l cut := by
  unfold Reaches at h ⊢
  rw [heq]
  exact h

theorem reaches_cutNumber {c : Char} (hc : c.isDigit = true) (hopening : Phase.opening c = .turn (.number 0)) (cs : List Char) :
    Reaches e p ⟨.start, placed p (c :: cs), e, s, q⟩ (cutNumber c cs) := by
  have hplain := (plain_of_wordChar (wordChar_of_digit hc)).past p
  have hturn : lex ⟨.start, placed p (c :: cs), e, s, q⟩ = lex ⟨.number 0, placed p (c :: cs), e, p, q⟩ := by
    refine lex_of_again ?_
    unfold pass mark
    dsimp only [placed]
    rw [List.map_cons, Phase.move, hopening]
    rfl
  have hmove : (Phase.number 0).move (c :: cs) = .read (.number (digitValue c)) := by
    have hle : 10 * 0 + digitValue c ≤ maxLiteral := by
      rw [Nat.mul_zero, Nat.zero_add]
      exact Nat.le_trans (digitValue_le hc) (by decide)
    rw [Phase.move, if_pos hc, if_pos hle, Nat.mul_zero, Nat.zero_add]
  have hread : lex ⟨.number 0, placed p (c :: cs), e, p, q⟩ = lex ⟨.number (digitValue c), placed (p.past c) cs, e, p, p⟩ :=
    lex_read hmove nofun
  obtain ⟨q', hq', hlex⟩ := @lex_digits e p cs (digitValue c) (p.past c) p hplain.symm
  refine Reaches.of_lex_eq ?_ (hturn.trans hread)
  unfold cutNumber
  dsimp only
  by_cases hmore : (readDigits (digitValue c) cs).2.2.head?.any Char.isDigit = true
  · rw [if_pos hmore] at hlex ⊢
    exact ⟨_, _, _, _, rfl, hlex⟩
  · rw [if_neg hmore] at hlex ⊢
    exact ⟨_, _, hq', hlex⟩

theorem reaches_cutWord {c : Char} (hc : isWordStart c = true) (hopening : Phase.opening c = .read (.word [c])) (cs : List Char) :
    Reaches e p ⟨.start, placed p (c :: cs), e, s, q⟩ (cutWord c cs) := by
  have hplain := (plain_of_wordChar (wordChar_of_start hc)).past p
  obtain ⟨q', hq', hlex⟩ := @lex_wordChars e p cs [c] (p.past c) p hplain.symm
  have hend : (cs.dropWhile isWordChar).head?.any isWordChar = false := by
    have hhead := List.head?_dropWhile_not isWordChar cs
    cases hrest : (cs.dropWhile isWordChar).head? with
    | none => rfl
    | some d =>
      rw [hrest] at hhead
      exact hhead
  have hmove := @move_word_of_end ([c] ++ cs.takeWhile isWordChar) _ hend
  have hsame : ∀ (t : Token) (more : Nat) (r : Position), Phase.finish (c :: cs.takeWhile isWordChar) (cs.dropWhile isWordChar) =
      .emit t more → lex ⟨.word ([c] ++ cs.takeWhile isWordChar), placed r (cs.dropWhile isWordChar), e, p, q'⟩ =
        (.ok (some t), skip ⟨.word ([c] ++ cs.takeWhile isWordChar), placed r (cs.dropWhile isWordChar), e, p, q'⟩ more) := by
    intro t more r hfinish
    refine lex_answer nofun ?_
    rw [hmove, List.singleton_append, hfinish]
    rfl
  refine Reaches.of_lex_eq ?_ ((lex_begin hopening).trans hlex)
  unfold cutWord
  dsimp only
  by_cases hprintln : String.ofList (c :: cs.takeWhile isWordChar) = "System" ∧ printlnTail <+: cs.dropWhile isWordChar
  · obtain ⟨rest, hrest⟩ := hprintln.2
    rw [if_pos hprintln, ← hrest, List.drop_left]
    have hfinish := hsame (.keyword .printlnKw) printlnTail.length ((p.past c).walk (cs.takeWhile isWordChar)) (if_pos hprintln)
    rw [← hrest] at hfinish
    obtain ⟨q'', hq'', hskip⟩ := @skip_placed e p printlnTail rest (.word ([c] ++ cs.takeWhile isWordChar))
      ((p.past c).walk (cs.takeWhile isWordChar)) q' plain_of_printlnTail hq'
    rw [hskip, ← Position.walk_append] at hfinish
    rw [← Position.walk_append] at hq''
    exact ⟨_, q'', hq'', hfinish⟩
  · rw [if_neg hprintln]
    cases hword : Keyword.ofWord? (String.ofList (c :: cs.takeWhile isWordChar)) with
    | some k =>
      refine ⟨_, q', hq', hsame (.keyword k) 0 _ ?_⟩
      rw [Phase.finish, if_neg hprintln, hword]
    | none =>
      refine ⟨_, q', hq', hsame (.ident (String.ofList (c :: cs.takeWhile isWordChar))) 0 _ ?_⟩
      rw [Phase.finish, if_neg hprintln, hword]

theorem reaches_cutSlash : ∀ cs : List Char, Reaches e p ⟨.start, placed p ('/' :: cs), e, s, q⟩ (cutSlash cs)
  | [] => by
    have hread : lex ⟨.start, placed p ['/'], e, s, q⟩ = lex ⟨.slash, [], e, p, p⟩ := lex_begin rfl
    exact Reaches.of_lex_eq ⟨_, _, _, [], rfl, lex_of_answer rfl⟩ hread
  | c :: cs => by
    refine Reaches.of_lex_eq ?_ (lex_begin rfl)
    by_cases hline : c = '/'
    · subst hline
      have hread : lex ⟨.slash, placed (p.past '/') ('/' :: cs), e, p, p⟩ =
          lex ⟨.lineComment, placed ((p.past '/').past '/') cs, e, p, p.past '/'⟩ := lex_read rfl nofun
      exact Reaches.of_lex_eq ⟨p, lex_lineComment cs _ _⟩ hread
    · by_cases hblock : c = '*'
      · subst hblock
        have hread : lex ⟨.slash, placed (p.past '/') ('*' :: cs), e, p, p⟩ =
            lex ⟨.blockComment, placed ((p.past '/').past '*') cs, e, p, p.past '/'⟩ := lex_read rfl nofun
        have hcloses := (@closes_blockComment e p cs ((p.past '/').past '*') (p.past '/')).1.of_lex_eq hread
        rw [cutSlash]
        cases hcut : cutComment? cs with
        | none =>
          rw [hcut] at hcloses
          obtain ⟨phase, q', hlex⟩ := hcloses
          exact ⟨phase, p, q', [], rfl, hlex⟩
        | some cut =>
          rw [hcut] at hcloses
          obtain ⟨q', hlex⟩ := hcloses
          exact ⟨p, q', hlex⟩
      · have hmove : Phase.slash.move (c :: cs) = .refuse (.expected '/') := by
          rw [Phase.move, if_neg hline, if_neg hblock]
        have hcut : cutSlash (c :: cs) = giveUp (.expected '/') ['/'] (c :: cs) := by
          rw [cutSlash]
          · exact fun _ h => hline (List.cons.inj h).1
          · exact fun _ h => hblock (List.cons.inj h).1
        rw [hcut]
        refine ⟨.slash, p, p, c :: cs, rfl, lex_answer nofun ?_⟩
        rw [hmove]
        rfl

theorem reaches_cutAmpersand : ∀ cs : List Char, Reaches e p ⟨.start, placed p ('&' :: cs), e, s, q⟩ (cutAmpersand cs)
  | [] => by
    have hread : lex ⟨.start, placed p ['&'], e, s, q⟩ = lex ⟨.ampersand, [], e, p, p⟩ := lex_begin rfl
    exact Reaches.of_lex_eq ⟨_, _, _, [], rfl, lex_of_answer rfl⟩ hread
  | c :: cs => by
    refine Reaches.of_lex_eq ?_ (lex_begin rfl)
    by_cases hc : c = '&'
    · subst hc
      have hread : lex ⟨.ampersand, placed (p.past '&') ('&' :: cs), e, p, p⟩ =
          lex ⟨.sign .and, placed ((p.past '&').past '&') cs, e, p, p.past '&'⟩ := lex_read rfl nofun
      have hlex : lex ⟨.sign .and, placed ((p.past '&').past '&') cs, e, p, p.past '&'⟩ =
          (.ok (some .and), ⟨.sign .and, placed ((p.past '&').past '&') cs, e, p, p.past '&'⟩) := lex_answer nofun rfl
      exact Reaches.of_lex_eq ⟨_, _, rfl, hlex⟩ hread
    · have hmove : Phase.ampersand.move (c :: cs) = .refuse (.expected '&') := if_neg hc
      have hcut : cutAmpersand (c :: cs) = giveUp (.expected '&') ['&'] (c :: cs) := by
        rw [cutAmpersand]
        exact fun _ h => hc (List.cons.inj h).1
      rw [hcut]
      refine ⟨.ampersand, p, p, c :: cs, rfl, lex_answer nofun ?_⟩
      rw [hmove]
      rfl

/-- A sign is in no other class of characters. -/
theorem classes_of_sign {c : Char} {t : Token} (h : Token.ofSign? c = some t) :
    isBlank c = false ∧ isWordStart c = false ∧ c.isDigit = false ∧ c ≠ '/' ∧ c ≠ '&' := by
  unfold Token.ofSign? at h
  split at h <;> cases h <;> decide

theorem reaches_cut (c : Char) (cs : List Char) : Reaches e p ⟨.start, placed p (c :: cs), e, s, q⟩ (cut c cs) := by
  cases hsign : Token.ofSign? c with
  | some t =>
    obtain ⟨hblank, hword, hdigit, hslash, hampersand⟩ := classes_of_sign hsign
    have hopening : Phase.opening c = .read (.sign t) := by
      unfold Phase.opening
      rw [hsign]
    have hcut : cut c cs = (.token t [c], cs) := by
      unfold cut
      rw [hblank, hword, hdigit, if_neg nofun, if_neg nofun, if_neg nofun, if_neg hslash, if_neg hampersand, hsign]
    have hplain : Plain c := by
      constructor
      · rintro rfl
        cases hblank
      · rintro rfl
        cases hblank
    have hlex : lex ⟨.sign t, placed (p.past c) cs, e, p, p⟩ = (.ok (some t), ⟨.sign t, placed (p.past c) cs, e, p, p⟩) :=
      lex_answer nofun rfl
    rw [hcut]
    exact Reaches.of_lex_eq ⟨_, p, (hplain.past p).symm, hlex⟩ (lex_begin hopening)
  | none =>
    have hopening : Phase.opening c = if c = '&' then .read .ampersand
        else if c = '/' then .read .slash
        else if isWordStart c then .read (.word [c])
        else if c.isDigit then .turn (.number 0)
        else if isBlank c then .read .start
        else .refuse (.badChar c) := by
      unfold Phase.opening
      rw [hsign]
    by_cases hampersand : c = '&'
    · subst hampersand
      exact reaches_cutAmpersand cs
    by_cases hslash : c = '/'
    · subst hslash
      exact reaches_cutSlash cs
    rw [if_neg hampersand, if_neg hslash] at hopening
    by_cases hword : isWordStart c = true
    · rw [cut_word hword]
      exact reaches_cutWord hword (hopening.trans (if_pos hword)) cs
    by_cases hdigit : c.isDigit = true
    · rw [cut_number hdigit]
      exact reaches_cutNumber hdigit (hopening.trans ((if_neg hword).trans (if_pos hdigit))) cs
    rw [if_neg hword, if_neg hdigit] at hopening
    by_cases hblank : isBlank c = true
    · have hcut : cut c cs = (.blank [c], cs) := if_pos hblank
      rw [hcut]
      exact ⟨p, p, lex_begin (hopening.trans (if_pos hblank))⟩
    · have hcut : cut c cs = giveUp (.badChar c) [] (c :: cs) := by
        unfold cut
        rw [if_neg hblank, if_neg hword, if_neg hdigit, if_neg hslash, if_neg hampersand, hsign]
      rw [hcut]
      refine ⟨.start, p, q, c :: cs, rfl, lex_of_answer ?_⟩
      unfold pass mark
      dsimp only [placed]
      rw [List.map_cons, Phase.move, hopening, if_neg hblank]
      rfl

/-! ## The whole stream -/

theorem next_of_token {l : Lexer} {t : Token} {phase : Phase} {rest : List (Char × Position)}
    (h : l.lex = (.ok (some t), ⟨phase, rest, e, s, q⟩)) :
    l.next = (some (.ok ⟨t, s, q.advance⟩), ⟨.start, rest, e, s, q⟩) := by
  unfold next
  rw [h]

theorem next_of_fault {l : Lexer} {error : LexError} {phase : Phase} {cs : List Char} (he : p.walk cs = e)
    (h : l.lex = (.error error, ⟨phase, placed p cs, e, s, q⟩)) :
    l.next = (some (.error ⟨error, Span.single p⟩), ⟨.fault, placed p cs, e, s, q⟩) := by
  have hhere : here ⟨phase, placed p cs, e, s, q⟩ = p := by
    cases cs with
    | nil => exact he.symm
    | cons c cs => rfl
  unfold next
  rw [h]
  dsimp only
  rw [hhere]

/-- **The calls answer what the segments add to the stream.** -/
theorem yields_segments (cs : List Char) : ∀ {p s q : Position}, p.walk cs = e →
    Yields ⟨.start, placed p cs, e, s, q⟩ (itemsFrom p (segments cs)) := by
  fun_induction segments cs with
  | case1 =>
    intro p s q he
    have hstop : ∀ s : Position, next ⟨.start, [], e, s, q⟩ = (none, ⟨.start, [], e, e, q⟩) := fun s => by
      have hlex : lex ⟨.start, [], e, s, q⟩ = (.ok none, ⟨.start, [], e, e, q⟩) := lex_of_answer rfl
      unfold next
      rw [hlex]
    exact .nil (hstop s) (hstop e)
  | case2 c cs ih =>
    intro p s q he
    have hreaches := @reaches_cut e p s q c cs
    have hwalk : (p.walk (cut c cs).1.text).walk (cut c cs).2 = e := by
      rw [← Position.walk_append, cut_append, he]
    generalize cut c cs = r at ih hreaches hwalk
    obtain ⟨g, rest⟩ := r
    cases g with
    | blank text =>
      obtain ⟨s', q', hlex⟩ := hreaches
      exact (ih hwalk).of_lex_eq hlex
    | token t text =>
      obtain ⟨phase, q', hq', hlex⟩ := hreaches
      have hnext := next_of_token hlex
      rw [hq'] at hnext
      exact .cons hnext (ih hwalk)
    | fault error read dropped =>
      obtain ⟨phase, s', q', ahead, hcut, hlex⟩ := hreaches
      have hahead : dropped ++ rest = ahead := by
        have happend := cutLine_append ahead
        rwa [hcut] at happend
      have hread : (p.walk read).walk ahead = e := by
        rw [← hwalk, ← hahead, Position.walk_append, Segment.text_fault, Position.walk_append]
      refine .cons (next_of_fault hread hlex) ?_
      obtain ⟨q'', hline | ⟨hend, hline⟩⟩ := @lex_fault e s' ahead (p.walk read) q'
      · rw [hcut] at hline
        rw [Segment.text_fault, Position.walk_append] at hwalk ⊢
        exact (ih hwalk).of_lex_eq hline
      · rw [hcut] at hend
        have hrest : rest = [] := hend
        have hnothing : next ⟨.fault, [], e, s', q''⟩ = (none, ⟨.fault, [], e, s', q''⟩) := by
          have hstop : lex ⟨.fault, [], e, s', q''⟩ = (.ok none, ⟨.fault, [], e, s', q''⟩) := lex_of_answer rfl
          unfold next
          rw [hstop]
        have hlast : next ⟨.fault, placed (p.walk read) ahead, e, s', q'⟩ = (none, ⟨.fault, [], e, s', q''⟩) := by
          unfold next
          rw [hline]
        rw [hrest, segments]
        exact .nil hlast hnothing

/-- **Calling the lexer again and again gives the stream of the source**, and then nothing, for ever. -/
theorem yields_ofSource {source : Source} (h : source.Lined) : (ofSource source).Yields source.items :=
  yields_segments source.chars h.walk_chars

end

end Lexer

/-! ## How long the stream is -/

theorem length_itemsFrom_le : ∀ (gs : List Segment) (p : Position), (itemsFrom p gs).length ≤ gs.length
  | [], _ => Nat.le_refl 0
  | g :: gs, p => by
    have hitem : (g.item? p).toList.length ≤ 1 := by
      cases g.item? p
      · exact Nat.zero_le 1
      · exact Nat.le_refl 1
    have hrest := length_itemsFrom_le gs (p.walk g.text)
    rw [itemsFrom, List.length_append, List.length_cons]
    omega

theorem length_segments_le (cs : List Char) : (segments cs).length ≤ cs.length := by
  fun_induction segments cs with
  | case1 => exact Nat.le_refl 0
  | case2 c cs ih => exact Nat.succ_le_of_lt (Nat.lt_of_le_of_lt ih (length_cut_lt c cs))

theorem length_dropReturns_le (cs : List Char) : (dropReturns cs).length ≤ cs.length := by
  fun_induction dropReturns cs with
  | case1 => exact Nat.le_refl 0
  | case2 cs ih => exact Nat.le_succ_of_le (Nat.succ_le_succ ih)
  | case3 c cs _ ih => exact Nat.succ_le_succ ih

/-- **A stream has no more items than its text has characters**, the newline counted that closes the last line. -/
theorem Source.length_items_le (name text : String) : (ofText name text).items.length ≤ text.toList.length + 1 := by
  have hitems := length_itemsFrom_le (segments (ofText name text).chars) .first
  have hsegments := length_segments_le (ofText name text).chars
  have hchars : (ofText name text).chars.length ≤ text.toList.length + 1 := by
    have hdrop := length_dropReturns_le text.toList
    rw [chars_ofText, closeLine]
    split
    · omega
    · rw [List.length_append, List.length_singleton]
      omega
  exact Nat.le_trans hitems (Nat.le_trans hsegments hchars)

end MiniJava
