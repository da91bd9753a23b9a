import MiniJava.Proofs.Token.Segments
/-!
# Where tokens end

The lexer takes one step for each segment (`CutsTo`), and each item of the stream comes from one of these steps
(`exists_cutsTo_of_mem_items`).  A word is read as far as there are letters, digits and underscores, a number as far as
there are digits (`whole_cut`), so that neither is the beginning of a longer one.  The exception is `System.out.println`:
its tail is compared as it stands, and what comes behind it does not matter (`segments_println`).
-/
namespace MiniJava

/-! ## The steps of the lexer -/

/-- **The lexer comes to `rest` at the start of a segment**, having cut `gs` off the text `cs`. -/
inductive CutsTo : List Char → List Segment → List Char → Prop
  | here {cs : List Char} : CutsTo cs [] cs
  | step {c : Char} {cs rest : List Char} {gs : List Segment} : CutsTo (cut c cs).2 gs rest →
      CutsTo (c :: cs) ((cut c cs).1 :: gs) rest

theorem itemsFrom_append (p : Position) (gs hs : List Segment) :
    itemsFrom p (gs ++ hs) = itemsFrom p gs ++ itemsFrom (p.walk (gs.flatMap Segment.text)) hs := by
  induction gs generalizing p with
  | nil => rfl
  | cons g gs ih =>
    rw [List.cons_append, itemsFrom, itemsFrom, ih, List.flatMap_cons, Position.walk_append, List.append_assoc]

namespace CutsTo

variable {cs rest : List Char} {gs : List Segment}

theorem text (h : CutsTo cs gs rest) : gs.flatMap Segment.text ++ rest = cs := by
  induction h with
  | here => rfl
  | step _ ih => rw [List.flatMap_cons, List.append_assoc, ih, cut_append]

theorem segments (h : CutsTo cs gs rest) : segments cs = gs ++ MiniJava.segments rest := by
  induction h with
  | here => rfl
  | step _ ih => rw [segments_cons, ih, List.cons_append]

/-- **The stream of a text is that of what was cut off and that of what is left.** -/
theorem items (h : CutsTo cs gs rest) (p : Position) : itemsFrom p (MiniJava.segments cs) =
    itemsFrom p gs ++ itemsFrom (p.walk (gs.flatMap Segment.text)) (MiniJava.segments rest) := by
  rw [h.segments, itemsFrom_append]

end CutsTo

/-- **Each item of the stream is that of a step.** -/
theorem exists_cutsTo_of_mem_items {cs : List Char} {p : Position} {x : Item} (h : x ∈ itemsFrom p (segments cs)) :
    ∃ gs c rest, CutsTo cs gs (c :: rest) ∧ (cut c rest).1.item? (p.walk (gs.flatMap Segment.text)) = some x := by
  fun_induction segments cs generalizing p with
  | case1 => cases h
  | case2 c cs ih =>
    rw [itemsFrom, List.mem_append, Option.mem_toList] at h
    rcases h with h | h
    · exact ⟨[], c, cs, .here, h⟩
    · obtain ⟨gs, d, rest, hcuts, hitem⟩ := ih h
      refine ⟨(cut c cs).1 :: gs, d, rest, .step hcuts, ?_⟩
      rwa [List.flatMap_cons, Position.walk_append]

theorem Segment.eq_token_of_item? {g : Segment} {p : Position} {t : Located Token} (h : g.item? p = some (.ok t)) :
    ∃ text, g = .token t.val text ∧ t.span = ⟨p, p.walk text⟩ := by
  cases g with
  | token u text =>
    cases h
    exact ⟨text, rfl, rfl⟩
  | blank text => cases h
  | fault e read dropped => cases h

/-! ## The end of a token -/

/-- **The text `rest` does not go on with the token**: a number with a digit, a word with a letter, a digit or an
underscore.  `System.out.println` is not a word. -/
def Token.EndsBefore : Token → List Char → Prop
  | .literal _, rest => rest.head?.any Char.isDigit = false
  | .ident _, rest => rest.head?.any isWordChar = false
  | .keyword k, rest => k ≠ .printlnKw → rest.head?.any isWordChar = false
  | _, _ => True

theorem not_wordChar_dropWhile (cs : List Char) : (cs.dropWhile isWordChar).head?.any isWordChar = false := by
  have h := List.head?_dropWhile_not isWordChar cs
  cases hhead : (cs.dropWhile isWordChar).head? with
  | none => rfl
  | some c =>
    rw [hhead] at h
    exact h

/-- What is cut off is no token, or all of one. -/
def Whole (r : Segment × List Char) : Prop := ∀ t text, r.1 = .token t text → t.EndsBefore r.2

theorem whole_token {t : Token} {text rest : List Char} (h : t.EndsBefore rest) : Whole (.token t text, rest) := by
  intro u text' heq
  cases heq
  exact h

theorem whole_blank (text rest : List Char) : Whole (.blank text, rest) := nofun

theorem whole_giveUp (e : LexError) (read rest : List Char) : Whole (giveUp e read rest) := nofun

theorem whole_cutWord (c : Char) (cs : List Char) : Whole (cutWord c cs) := by
  have hword := not_wordChar_dropWhile cs
  simp only [cutWord]
  split
  · exact whole_token fun hk => absurd rfl hk
  · split
    · exact whole_token fun _ => hword
    · exact whole_token hword

theorem whole_cutNumber (c : Char) (cs : List Char) : Whole (cutNumber c cs) := by
  simp only [cutNumber]
  split
  · exact whole_giveUp _ _ _
  · rename_i hdigit
    exact whole_token (Bool.eq_false_iff.2 hdigit)

theorem whole_cutSlash (cs : List Char) : Whole (cutSlash cs) := by
  unfold cutSlash
  split
  · exact whole_blank _ _
  · split
    · exact whole_blank _ _
    · nofun
  · exact whole_giveUp _ _ _

theorem whole_cutAmpersand (cs : List Char) : Whole (cutAmpersand cs) := by
  unfold cutAmpersand
  split
  · exact whole_token trivial
  · exact whole_giveUp _ _ _

theorem endsBefore_of_ofSign? {c : Char} {t : Token} (h : Token.ofSign? c = some t) (rest : List Char) :
    t.EndsBefore rest := by
  unfold Token.ofSign? at h
  split at h <;> cases h <;> trivial

/-- **Words and numbers are read to their ends.** -/
theorem whole_cut (c : Char) (cs : List Char) : Whole (cut c cs) := by
  unfold cut
  split
  · exact whole_blank _ _
  split
  · exact whole_cutWord c cs
  split
  · exact whole_cutNumber c cs
  split
  · exact whole_cutSlash cs
  split
  · exact whole_cutAmpersand cs
  split
  · rename_i hsign
    exact whole_token (endsBefore_of_ofSign? hsign cs)
  · exact whole_giveUp _ _ _

/-! ## Streams -/

/-- The one keyword that holds signs, as a text. -/
def printlnText : List Char := Keyword.printlnKw.lexeme.toList

/-- **`System.out.println` is cut off whatever comes behind it.** -/
theorem segments_println (rest : List Char) :
    segments (printlnText ++ rest) = .token (.keyword .printlnKw) printlnText :: segments rest := by
  refine segments_append_of_cut ⟨'S', "ystem".toList ++ printlnTail, rfl, ?_⟩
  rw [List.append_assoc, cut_word (by decide), cutWord_println]
  rfl

namespace Source

/-- **Words and literals are maximal, but for `System.out.println`.**  Whatever the source, each token of its stream, also
one behind a fault, has a span of the text that spells it; behind an identifier or a keyword that is a word there is no
letter, digit or underscore, and behind a literal there is no digit, so that none of them is the beginning of a longer word
or number.  Not so `System.out.println`: wherever the lexer comes to it, it is a token, and the lexer goes on right behind
it, also in the middle of a word. -/
theorem words_maximal (s : Source) :
    (∀ t, Except.ok t ∈ s.items → ∃ before text after, s.chars = before ++ text ++ after ∧ t.val.SpelledBy text ∧
      t.span = ⟨Position.first.walk before, Position.first.walk (before ++ text)⟩ ∧ t.val.EndsBefore after) ∧
    ∀ gs rest, CutsTo s.chars gs (printlnText ++ rest) →
      s.items = itemsFrom .first gs ++
        .ok ⟨.keyword .printlnKw, Position.first.walk (gs.flatMap Segment.text),
          Position.first.walk (gs.flatMap Segment.text ++ printlnText)⟩ ::
        itemsFrom (Position.first.walk (gs.flatMap Segment.text ++ printlnText)) (segments rest) := by
  refine ⟨fun t ht => ?_, fun gs rest hcuts => ?_⟩
  · obtain ⟨gs, c, rest, hcuts, hitem⟩ := exists_cutsTo_of_mem_items ht
    obtain ⟨text, htoken, hspan⟩ := Segment.eq_token_of_item? hitem
    have hcut := cut_cut c rest
    rw [htoken] at hcut
    cases hcut with
    | token _ hspelled =>
      refine ⟨gs.flatMap Segment.text, text, (cut c rest).2, ?_, hspelled, ?_, whole_cut c rest _ _ htoken⟩
      · rw [← hcuts.text, ← cut_append c rest, htoken, Segment.text_token, List.append_assoc]
      · rw [hspan, Position.walk_append]
  · rw [items, hcuts.items, segments_println, itemsFrom, Segment.text_token, Position.walk_append]
    rfl

end Source

namespace Sample

/-- A word, then `System.out.println` at the beginning of a longer one, and a number. -/
def runOn : Source := .ofText "<sample>" "is System.out.printlnx 007"

end Sample

/-- The tokens of the sample, the second of which breaks off in the middle of a word. -/
theorem Source.words_maximal_on_sample :
    Sample.runOn.items = [.ok ⟨.ident "is", ⟨1, 1⟩, ⟨1, 3⟩⟩] ++ .ok ⟨.keyword .printlnKw, ⟨1, 4⟩, ⟨1, 22⟩⟩ ::
      [.ok ⟨.ident "x", ⟨1, 22⟩, ⟨1, 23⟩⟩, .ok ⟨.literal 7, ⟨1, 24⟩, ⟨1, 27⟩⟩] ∧
    ∃ before text after, Sample.runOn.chars = before ++ text ++ after ∧ (Token.literal 7).SpelledBy text ∧
      (⟨⟨1, 24⟩, ⟨1, 27⟩⟩ : Span) = ⟨Position.first.walk before, Position.first.walk (before ++ text)⟩ ∧
      (Token.literal 7).EndsBefore after := by
  obtain ⟨htokens, hprintln⟩ := Source.words_maximal Sample.runOn
  have hcuts : CutsTo Sample.runOn.chars [.token (.ident "is") ['i', 's'], .blank [' ']]
      (printlnText ++ ['x', ' ', '0', '0', '7', '\n']) := .step (.step .here)
  have hrest : CutsTo ['x', ' ', '0', '0', '7', '\n']
      [.token (.ident "x") ['x'], .blank [' '], .token (.literal 7) ['0', '0', '7'], .blank ['\n']] [] :=
    .step (.step (.step (.step .here)))
  have hitems : Sample.runOn.items = [.ok ⟨.ident "is", ⟨1, 1⟩, ⟨1, 3⟩⟩] ++ .ok ⟨.keyword .printlnKw, ⟨1, 4⟩, ⟨1, 22⟩⟩ ::
      [.ok ⟨.ident "x", ⟨1, 22⟩, ⟨1, 23⟩⟩, .ok ⟨.literal 7, ⟨1, 24⟩, ⟨1, 27⟩⟩] := by
    rw [hprintln _ _ hcuts, hrest.segments, segments]
    rfl
  refine ⟨hitems, htokens ⟨.literal 7, ⟨1, 24⟩, ⟨1, 27⟩⟩ ?_⟩
  rw [hitems]
  simp

/-- **A token can be the beginning of a longer word**: the text is one of the word characters behind it. -/
theorem Source.exists_println_in_word : ∃ t before after,
    Except.ok t ∈ (ofText "<sample>" "System.out.printlnx").items ∧ t.val = .keyword .printlnKw ∧
    (ofText "<sample>" "System.out.printlnx").chars = before ++ printlnText ++ after ∧
    t.span = ⟨Position.first.walk before, Position.first.walk (before ++ printlnText)⟩ ∧
    after.head?.any isWordChar = true := by
  refine ⟨⟨.keyword .printlnKw, ⟨1, 1⟩, ⟨1, 19⟩⟩, [], ['x', '\n'], ?_, rfl, by decide, by decide, by decide⟩
  rw [items, show (ofText "<sample>" "System.out.printlnx").chars = printlnText ++ ['x', '\n'] by decide,
    segments_println]
  exact List.mem_cons_self

end MiniJava
