import MiniJava.Proofs.Source.Chars
import MiniJava.Proofs.Token.Lexemes
/-!
# Printed tokens

Tokens are printed one after another, each with its lexeme and a gap behind it: white space and comments, and at least one
of these.  Reading a source undoes the printing (`Source.tokens_of_printed`).

The source that is read is not quite the text that was printed: it has no carriage returns before newlines, and it ends in
a newline.  But that text is a printing of the same tokens with other gaps (`exists_printed_chars`), so that the lexer has
to be followed only over printings.
-/
namespace MiniJava

/-- What may stand in a gap: a character of white space, or a comment. -/
inductive Filler where
  | blank (c : Char) (isBlank : isBlank c = true)
  | line (body : List Char) (open_ : '\n' ∉ body)
  | block (body : List Char) (open_ : ¬ ['*', '/'] <:+: body)

def Filler.text : Filler → List Char
  | blank c _ => [c]
  | line body _ => '/' :: '/' :: (body ++ ['\n'])
  | block body _ => '/' :: '*' :: (body ++ ['*', '/'])

def gapText (fs : List Filler) : List Char := fs.flatMap Filler.text

/-- A token that is printed, and the gap behind it. -/
structure Printed where
  token : Token
  lexical : token.Lexical
  gap : List Filler
  parted : gap ≠ []

def Printed.text (x : Printed) : List Char := x.token.lexeme.toList ++ gapText x.gap

/-- The text of printed tokens. -/
def printedText (xs : List Printed) : List Char := xs.flatMap Printed.text

/-! ## Reading a gap -/

theorem cutLine_of_open : ∀ {body rest : List Char}, '\n' ∉ body →
    cutLine (body ++ '\n' :: rest) = (body ++ ['\n'], rest)
  | [], rest, _ => rfl
  | c :: body, rest, h => by
    rw [List.mem_cons, not_or] at h
    rw [List.cons_append, cutLine, if_neg (Ne.symm h.1), cutLine_of_open h.2]
    rfl

theorem cutComment?_of_open : ∀ {body rest : List Char}, ¬ ['*', '/'] <:+: body →
    cutComment? (body ++ '*' :: '/' :: rest) = some (body ++ ['*', '/'], rest)
  | [], rest, _ => rfl
  | c :: body, rest, h => by
    have hbody : ¬ ['*', '/'] <:+: body := fun h' => h (List.infix_cons h')
    rw [List.cons_append, cutComment?, cutComment?_of_open hbody]
    · rfl
    · rintro cs rfl hcs
      cases body with
      | nil => cases hcs
      | cons d body =>
        cases (List.cons.inj hcs).1
        exact h ⟨[], body, rfl⟩

theorem segments_filler (f : Filler) (rest : List Char) : segments (f.text ++ rest) = .blank f.text :: segments rest := by
  refine segments_append_of_cut ?_
  cases f with
  | blank c h => exact ⟨c, [], rfl, by rw [cut, if_pos h]; rfl⟩
  | line body h =>
    refine ⟨'/', '/' :: (body ++ ['\n']), rfl, ?_⟩
    show cutSlash ('/' :: (body ++ ['\n'] ++ rest)) = _
    rw [List.append_assoc, List.singleton_append, cutSlash, cutLine_of_open h]
    rfl
  | block body h =>
    refine ⟨'/', '*' :: (body ++ ['*', '/']), rfl, ?_⟩
    show cutSlash ('*' :: (body ++ ['*', '/'] ++ rest)) = _
    rw [List.append_assoc, List.cons_append, List.singleton_append]
    simp only [cutSlash, cutComment?_of_open h]
    rfl

theorem segments_gap : ∀ (fs : List Filler) (rest : List Char),
    segments (gapText fs ++ rest) = fs.map (fun f => .blank f.text) ++ segments rest
  | [], _ => rfl
  | f :: fs, rest => by
    rw [gapText, List.flatMap_cons, List.append_assoc, segments_filler, ← gapText, segments_gap fs]
    rfl

theorem parted_gap {fs : List Filler} (h : fs ≠ []) (rest : List Char) : Parted (gapText fs ++ rest) := by
  cases fs with
  | nil => exact absurd rfl h
  | cons f fs =>
    intro c hc
    cases f with
    | blank d hd =>
      cases Option.some.inj hc
      exact .inl hd
    | line _ _ | block _ _ => exact .inr (Option.some.inj hc).symm

/-- A printed token is read as the token and the blanks behind it. -/
def Printed.segments (x : Printed) : List Segment :=
  .token x.token x.token.lexeme.toList :: x.gap.map fun f => .blank f.text

theorem segments_printed : ∀ xs : List Printed, segments (printedText xs) = xs.flatMap Printed.segments
  | [] => by
    rw [printedText, List.flatMap_nil, segments]
    rfl
  | x :: xs => by
    rw [printedText, List.flatMap_cons, Printed.text, List.append_assoc, segments_lexeme x.lexical (parted_gap x.parted _),
      segments_gap, ← printedText, segments_printed xs]
    rfl

/-! ## How the lines of a printing end -/

theorem dropReturns_line : ∀ {body : List Char}, '\n' ∉ body → ∃ body', '\n' ∉ body' ∧
    ∀ rest, dropReturns (body ++ '\n' :: rest) = body' ++ '\n' :: dropReturns rest
  | [], _ => ⟨[], List.not_mem_nil, fun rest => dropReturns_cons fun h => absurd h (by decide)⟩
  | c :: body, h => by
    obtain ⟨hc, hbody⟩ := not_or.1 (mt List.mem_cons.2 h)
    obtain ⟨body', hbody', heq⟩ := dropReturns_line hbody
    by_cases hreturn : c = '\r' ∧ body = []
    · obtain ⟨rfl, rfl⟩ := hreturn
      exact ⟨[], List.not_mem_nil, fun rest => by rw [List.cons_append, List.nil_append, dropReturns]; rfl⟩
    · refine ⟨c :: body', fun hm => (List.mem_cons.1 hm).elim hc hbody', fun rest => ?_⟩
      rw [List.cons_append, dropReturns_cons, heq]
      · rfl
      · intro hr hhead
        cases body with
        | nil => exact hreturn ⟨hr, rfl⟩
        | cons d body => exact hbody (Option.some.inj hhead ▸ List.mem_cons_self)

theorem head?_of_dropReturns {cs : List Char} {c : Char} (hc : c ≠ '\n') (h : (dropReturns cs).head? = some c) :
    cs.head? = some c := by
  fun_cases dropReturns cs with
  | case1 => exact h
  | case2 cs => exact absurd (Option.some.inj h).symm hc
  | case3 d cs hne => rwa [dropReturns] at h; exact hne

/-- No end of a comment comes about where a carriage return goes. -/
theorem infix_of_infix_dropReturns {cs : List Char} (h : ['*', '/'] <:+: dropReturns cs) : ['*', '/'] <:+: cs := by
  fun_induction dropReturns cs with
  | case1 => exact h
  | case2 cs ih =>
    rcases List.infix_cons_iff.1 h with h | h
    · exact absurd (List.cons_prefix_cons.1 h).1 (by decide)
    · exact List.infix_cons (List.infix_cons (ih h))
  | case3 c cs hne ih =>
    rcases List.infix_cons_iff.1 h with h | h
    · obtain ⟨rfl, rest, hrest⟩ := List.cons_prefix_cons.1 h
      have hhead := head?_of_dropReturns (c := '/') (by decide) (by rw [← hrest]; rfl)
      obtain ⟨cs', rfl⟩ := List.head?_eq_some_iff.1 hhead
      exact ⟨[], cs', rfl⟩
    · exact List.infix_cons (ih h)

theorem exists_gap_dropReturns : ∀ fs : List Filler,
    ∃ fs', (fs ≠ [] → fs' ≠ []) ∧ dropReturns (gapText fs) = gapText fs'
  | [] => ⟨[], id, rfl⟩
  | .blank c h :: fs => by
    obtain ⟨fs', hne, heq⟩ := exists_gap_dropReturns fs
    by_cases hreturn : c = '\r' ∧ (gapText fs).head? = some '\n'
    -- The carriage return goes, and the gap still has the line feed.
    · obtain ⟨rfl, hhead⟩ := hreturn
      obtain ⟨cs, hcs⟩ := List.head?_eq_some_iff.1 hhead
      have hfs : fs ≠ [] := by
        rintro rfl
        cases hcs
      refine ⟨fs', fun _ => hne hfs, ?_⟩
      show dropReturns ('\r' :: gapText fs) = _
      rw [← heq, hcs, dropReturns, dropReturns_cons fun h => absurd h (by decide)]
    · refine ⟨.blank c h :: fs', fun _ => List.cons_ne_nil _ _, ?_⟩
      show dropReturns (c :: gapText fs) = c :: gapText fs'
      rw [dropReturns_cons fun hc hhead => hreturn ⟨hc, hhead⟩, heq]
  | .line body h :: fs => by
    obtain ⟨fs', -, heq⟩ := exists_gap_dropReturns fs
    obtain ⟨body', hbody', hline⟩ := dropReturns_line h
    refine ⟨.line body' hbody' :: fs', fun _ => List.cons_ne_nil _ _, ?_⟩
    show dropReturns (['/', '/'] ++ (body ++ ['\n'] ++ gapText fs)) = ['/', '/'] ++ (body' ++ ['\n'] ++ gapText fs')
    rw [dropReturns_append_of_notMem (by decide), List.append_assoc, List.singleton_append, hline, heq, List.append_assoc]
    rfl
  | .block body h :: fs => by
    obtain ⟨fs', -, heq⟩ := exists_gap_dropReturns fs
    have hbody : ¬ ['*', '/'] <:+: dropReturns body := fun h' => h (infix_of_infix_dropReturns h')
    refine ⟨.block (dropReturns body) hbody :: fs', fun _ => List.cons_ne_nil _ _, ?_⟩
    show dropReturns (['/', '*'] ++ (body ++ ['*', '/'] ++ gapText fs)) =
      ['/', '*'] ++ (dropReturns body ++ ['*', '/'] ++ gapText fs')
    rw [dropReturns_append_of_notMem (by decide), List.append_assoc, dropReturns_append (by simp),
      dropReturns_append_of_notMem (by decide), heq, List.append_assoc]

theorem head?_printedText (xs : List Printed) : (printedText xs).head? ≠ some '\n' := by
  cases xs with
  | nil => nofun
  | cons x xs =>
    obtain ⟨c, cs, hchars⟩ := List.exists_cons_of_ne_nil x.lexical.lexeme_ne_nil
    rw [printedText, List.flatMap_cons, Printed.text, hchars]
    intro h
    cases Option.some.inj h
    exact absurd (x.lexical.not_blank_of_mem (hchars ▸ List.mem_cons_self)) (by decide)

theorem exists_printed_dropReturns : ∀ xs : List Printed,
    ∃ ys : List Printed, ys.map (·.token) = xs.map (·.token) ∧ dropReturns (printedText xs) = printedText ys
  | [] => ⟨[], rfl, rfl⟩
  | x :: xs => by
    obtain ⟨ys, htokens, heq⟩ := exists_printed_dropReturns xs
    obtain ⟨gap, hne, hgap⟩ := exists_gap_dropReturns x.gap
    refine ⟨⟨x.token, x.lexical, gap, hne x.parted⟩ :: ys, congrArg (x.token :: ·) htokens, ?_⟩
    have hreturn : '\r' ∉ x.token.lexeme.toList := fun h => absurd (x.lexical.not_blank_of_mem h) (by decide)
    show dropReturns (x.token.lexeme.toList ++ gapText x.gap ++ printedText xs) =
      x.token.lexeme.toList ++ gapText gap ++ printedText ys
    rw [List.append_assoc, dropReturns_append_of_notMem hreturn, dropReturns_append (head?_printedText xs), hgap, heq,
      List.append_assoc]

theorem exists_printed_closeLine (xs : List Printed) :
    ∃ ys : List Printed, ys.map (·.token) = xs.map (·.token) ∧ closeLine (printedText xs) = printedText ys := by
  unfold closeLine
  split
  · exact ⟨xs, rfl, rfl⟩
  · rename_i hopen
    obtain rfl | ⟨xs, x, rfl⟩ := xs.eq_nil_or_concat
    · exact absurd (.inl rfl) hopen
    · refine ⟨xs ++ [{ x with gap := x.gap ++ [.blank '\n' rfl], parted := by simp }], by simp, ?_⟩
      simp [printedText, Printed.text, gapText, Filler.text]

/-- **The characters of a source with printed tokens are those tokens, printed.** -/
theorem exists_printed_chars (name : String) (xs : List Printed) : ∃ ys : List Printed,
    ys.map (·.token) = xs.map (·.token) ∧ (Source.ofText name (String.ofList (printedText xs))).chars = printedText ys := by
  obtain ⟨ys, hys, hdrop⟩ := exists_printed_dropReturns xs
  obtain ⟨zs, hzs, hclose⟩ := exists_printed_closeLine ys
  refine ⟨zs, hzs.trans hys, ?_⟩
  rw [Source.chars_ofText, String.toList_ofList, hdrop, hclose]

/-! ## Streams without faults -/

def Segment.token? : Segment → Option Token
  | token t _ => some t
  | _ => none

def Segment.isFault : Segment → Bool
  | fault _ _ _ => true
  | _ => false

theorem token?_segments : ∀ xs : List Printed,
    (xs.flatMap Printed.segments).filterMap Segment.token? = xs.map (·.token)
  | [] => rfl
  | x :: xs => by
    have hgap : (x.gap.map fun f => Segment.blank f.text).filterMap Segment.token? = [] := by
      rw [List.filterMap_map]
      exact List.filterMap_eq_nil_iff.2 fun _ _ => rfl
    have hfirst : x.segments.filterMap Segment.token? = [x.token] := congrArg (x.token :: ·) hgap
    rw [List.flatMap_cons, List.filterMap_append, token?_segments xs, hfirst]
    rfl

theorem itemsFrom_of_no_fault : ∀ {gs : List Segment} {p : Position}, (∀ g ∈ gs, g.isFault = false) →
    ∃ ts : List (Located Token), itemsFrom p gs = ts.map .ok ∧ ts.map (·.val) = gs.filterMap Segment.token?
  | [], _, _ => ⟨[], rfl, rfl⟩
  | g :: gs, p, h => by
    obtain ⟨hg, hgs⟩ := List.forall_mem_cons.1 h
    obtain ⟨ts, hitems, hvals⟩ := itemsFrom_of_no_fault (p := p.walk g.text) hgs
    cases g with
    | blank text => exact ⟨ts, hitems, hvals⟩
    | token t text => exact ⟨⟨t, p, p.walk text⟩ :: ts, congrArg (_ :: ·) hitems, congrArg (t :: ·) hvals⟩
    | fault e read dropped => cases hg

/-- A source without faults has the tokens of its segments. -/
theorem Source.tokens_of_no_fault {s : Source} (h : ∀ g ∈ segments s.chars, g.isFault = false) :
    ∃ ts, s.tokens.result = .ok ts ∧ ts.map (·.val) = (segments s.chars).filterMap Segment.token? := by
  obtain ⟨ts, hitems, hvals⟩ := itemsFrom_of_no_fault (p := .first) h
  have hfaults : s.faults = [] := by
    rw [Source.faults, Source.items, hitems, List.filterMap_map]
    exact List.filterMap_eq_nil_iff.2 fun _ _ => rfl
  have htokens : s.items.filterMap Except.toOption = ts := by
    rw [Source.items, hitems, List.filterMap_map]
    exact List.filterMap_some
  refine ⟨ts, ?_, hvals⟩
  rw [Source.tokens, hfaults, if_pos List.isEmpty_nil, htokens]
  rfl

/-- **Reading undoes printing.**  Whatever tokens are printed, with whatever white space and comments between them, the
source has these tokens and no fault. -/
theorem Source.tokens_of_printed (name : String) (xs : List Printed) :
    ∃ ts, (Source.ofText name (String.ofList (printedText xs))).tokens.result = .ok ts ∧
      ts.map (·.val) = xs.map (·.token) := by
  obtain ⟨ys, htokens, hchars⟩ := exists_printed_chars name xs
  have hsegments := congrArg segments hchars
  rw [segments_printed] at hsegments
  obtain ⟨ts, hts, hvals⟩ := Source.tokens_of_no_fault (s := Source.ofText name (String.ofList (printedText xs))) (by
    rw [hsegments]
    simp only [List.mem_flatMap, Printed.segments, List.mem_cons, List.mem_map]
    rintro g ⟨y, -, rfl | ⟨f, -, rfl⟩⟩ <;> rfl)
  refine ⟨ts, hts, ?_⟩
  rw [hvals, hsegments, token?_segments, htokens]

end MiniJava
