import MiniJava.Proofs.CText.Expressions
/-!
# Tokens of C yield one statement

Statements are read from the left like expressions.  What the next token does not decide is whether an `if` has an `else`:
the reader takes an `else` that it meets behind a branch, and the grammar has a closed statement there, which no `else`
goes on from (`Statement.reads`).  So tokens yield one statement at most, and one row of statements (`Statements.unique`).
-/
namespace MiniJava.CText

open CToken (word number mark)

/-! ## Reading statements -/

/-- Whether a statement that is no expression comes next. -/
def StatementAhead : List CToken → Prop
  | mark m :: _ => m = "\x7b"
  | word w :: _ => w ∈ grammarWords
  | _ => False

theorem statementAhead_word {w : String} (hw : w ∈ grammarWords) (ts : List CToken) : StatementAhead (word w :: ts) := hw

mutual

/-- **What is read from the front of the tokens as a statement.**  Behind the first branch of an `if` an `else` is taken. -/
inductive ReadsStatement : List CToken → CStmtTree → List CToken → Prop
  | block {ts us : List CToken} {body : List CStmtTree} : ReadsStatements ts body (mark "\x7d" :: us) →
      ReadsStatement (mark "\x7b" :: ts) (.block body) us
  | ite {ts us vs ws : List CToken} {c : CTree} {yes no : CStmtTree} : Reads 0 ts c (mark ")" :: us) →
      ReadsStatement us yes (word "else" :: vs) → ReadsStatement vs no ws →
      ReadsStatement (word "if" :: mark "(" :: ts) (.ite c yes no) ws
  | when {ts us vs : List CToken} {c : CTree} {yes : CStmtTree} : Reads 0 ts c (mark ")" :: us) →
      ReadsStatement us yes vs → vs.head? ≠ some (word "else") →
      ReadsStatement (word "if" :: mark "(" :: ts) (.when c yes) vs
  | loop {ts us vs : List CToken} {c : CTree} {body : CStmtTree} : Reads 0 ts c (mark ")" :: us) →
      ReadsStatement us body vs → ReadsStatement (word "while" :: mark "(" :: ts) (.loop c body) vs
  | expression {ts us : List CToken} {e : CTree} : ¬ StatementAhead ts → Reads 0 ts e (mark ";" :: us) →
      ReadsStatement ts (.expression e) us

/-- Statements up to a closing brace or the end. -/
inductive ReadsStatements : List CToken → List CStmtTree → List CToken → Prop
  | nil {ts : List CToken} : (∀ t ∈ ts.head?, t = mark "\x7d") → ReadsStatements ts [] ts
  | cons {ts us vs : List CToken} {s : CStmtTree} {ss : List CStmtTree} : (∃ t ∈ ts.head?, t ≠ mark "\x7d") →
      ReadsStatement ts s us → ReadsStatements us ss vs → ReadsStatements ts (s :: ss) vs

end

mutual

theorem ReadsStatement.unique : ∀ {ts us us' : List CToken} {s s' : CStmtTree}, ReadsStatement ts s us →
    ReadsStatement ts s' us' → s = s' ∧ us = us'
  | _, _, _, _, _, .block hb, h' => by
    cases h' with
    | block hb' =>
      obtain ⟨rfl, heq⟩ := hb.unique hb'
      exact ⟨rfl, (List.cons.inj heq).2⟩
    | expression hnot _ => exact absurd rfl hnot
  | _, _, _, _, _, @ReadsStatement.ite ts us vs ws c yes no hc hy hn, h' => by
    generalize hws : word "if" :: mark "(" :: ts = xs at h'
    cases h' with
    | ite hc' hy' hn' =>
      cases hws
      obtain ⟨rfl, heq⟩ := hc.unique hc'
      cases heq
      obtain ⟨rfl, heq⟩ := hy.unique hy'
      cases heq
      obtain ⟨rfl, rfl⟩ := hn.unique hn'
      exact ⟨rfl, rfl⟩
    | when hc' hy' hne =>
      cases hws
      obtain ⟨rfl, heq⟩ := hc.unique hc'
      cases heq
      obtain ⟨-, rfl⟩ := hy.unique hy'
      exact absurd rfl hne
    | expression hnot _ => exact absurd (hws ▸ statementAhead_word (by decide) _) hnot
    | _ => simp at hws
  | _, _, _, _, _, @ReadsStatement.when ts us vs c yes hc hy hne, h' => by
    generalize hws : word "if" :: mark "(" :: ts = xs at h'
    cases h' with
    | ite hc' hy' hn' =>
      cases hws
      obtain ⟨rfl, heq⟩ := hc.unique hc'
      cases heq
      obtain ⟨-, rfl⟩ := hy.unique hy'
      exact absurd rfl hne
    | when hc' hy' _ =>
      cases hws
      obtain ⟨rfl, heq⟩ := hc.unique hc'
      cases heq
      obtain ⟨rfl, rfl⟩ := hy.unique hy'
      exact ⟨rfl, rfl⟩
    | expression hnot _ => exact absurd (hws ▸ statementAhead_word (by decide) _) hnot
    | _ => simp at hws
  | _, _, _, _, _, @ReadsStatement.loop ts us vs c body hc hb, h' => by
    generalize hws : word "while" :: mark "(" :: ts = xs at h'
    cases h' with
    | loop hc' hb' =>
      cases hws
      obtain ⟨rfl, heq⟩ := hc.unique hc'
      cases heq
      obtain ⟨rfl, rfl⟩ := hb.unique hb'
      exact ⟨rfl, rfl⟩
    | expression hnot _ => exact absurd (hws ▸ statementAhead_word (by decide) _) hnot
    | _ => simp at hws
  | _, _, _, _, _, .expression hnot he, h' => by
    cases h' with
    | block _ => exact absurd rfl hnot
    | ite _ _ _ => exact absurd (statementAhead_word (by decide) _) hnot
    | when _ _ _ => exact absurd (statementAhead_word (by decide) _) hnot
    | loop _ _ => exact absurd (statementAhead_word (by decide) _) hnot
    | expression _ he' =>
      obtain ⟨rfl, heq⟩ := he.unique he'
      exact ⟨rfl, (List.cons.inj heq).2⟩
termination_by structural _ _ _ _ _ h => h

theorem ReadsStatements.unique : ∀ {ts us us' : List CToken} {ss ss' : List CStmtTree}, ReadsStatements ts ss us →
    ReadsStatements ts ss' us' → ss = ss' ∧ us = us'
  | _, _, _, _, _, .nil hend, h' => by
    cases h' with
    | nil _ => exact ⟨rfl, rfl⟩
    | cons hmore _ _ =>
      obtain ⟨t, ht, hne⟩ := hmore
      exact absurd (hend t ht) hne
  | _, _, _, _, _, .cons hmore hs hss, h' => by
    cases h' with
    | nil hend =>
      obtain ⟨t, ht, hne⟩ := hmore
      exact absurd (hend t ht) hne
    | cons _ hs' hss' =>
      obtain ⟨rfl, rfl⟩ := hs.unique hs'
      obtain ⟨rfl, rfl⟩ := hss.unique hss'
      exact ⟨rfl, rfl⟩
termination_by structural _ _ _ _ _ h => h

end

/-! ## All that the grammar yields -/

/-- How a statement begins. -/
def StartsStatement (t : CToken) : Prop := Starts t ∨ t = mark "\x7b" ∨ t = word "if" ∨ t = word "while"

theorem Statement.head : ∀ {closed : Bool} {ts : List CToken} {s : CStmtTree}, Statement closed ts s →
    ∃ t us, ts = t :: us ∧ StartsStatement t
  | _, _, _, .block _ => ⟨_, _, rfl, .inr (.inl rfl)⟩
  | _, _, _, .ite _ _ _ | _, _, _, .when _ _ => ⟨_, _, rfl, .inr (.inr (.inl rfl))⟩
  | _, _, _, .loop _ _ => ⟨_, _, rfl, .inr (.inr (.inr rfl))⟩
  | _, _, _, .expression he => by
    obtain ⟨t, us, rfl, hstarts, -⟩ := he.head
    exact ⟨t, _, rfl, .inl hstarts⟩

/-- Neither a closing brace nor `else` begins a statement. -/
theorem StartsStatement.ne {t : CToken} (h : StartsStatement t) : t ≠ mark "\x7d" ∧ t ≠ word "else" := by
  rcases h with h | rfl | rfl | rfl
  · constructor
    · rintro rfl
      exact absurd h (by rintro (h | h) <;> exact absurd h (by decide))
    · rintro rfl
      exact h (by decide)
  all_goals decide

/-- In front of a closing brace or the end no `else` follows a row of statements, nor comes first in it. -/
theorem Statements.head? {ts rest : List CToken} {ss : List CStmtTree} (h : Statements ts ss)
    (hend : ∀ t ∈ rest.head?, t = mark "\x7d") : (ts ++ rest).head? ≠ some (word "else") := by
  intro helse
  cases h with
  | nil => cases hend _ helse
  | cons hs _ =>
    obtain ⟨t, us, rfl, hstarts⟩ := hs.head
    exact hstarts.ne.2 (Option.some.inj helse)

mutual

/-- **The tokens of a statement are read as that statement**, where no `else` follows an open one. -/
theorem Statement.reads : ∀ {closed : Bool} {ts : List CToken} {s : CStmtTree}, Statement closed ts s →
    ∀ {rest : List CToken}, (closed = false → rest.head? ≠ some (word "else")) → ReadsStatement (ts ++ rest) s rest
  | _, _, _, @Statement.block ts body hb, rest, _ => by
    rw [List.append_assoc]
    exact .block (hb.reads (by simp))
  | closed, _, _, @Statement.ite _ cs ys ns c yes no hc hy hn, rest, helse => by
    -- The first branch is closed, so no `if` within it takes the `else`.
    have hyes : ReadsStatement (ys ++ word "else" :: (ns ++ rest)) yes (word "else" :: (ns ++ rest)) := hy.reads nofun
    have hcond : Reads 0 (cs ++ mark ")" :: (ys ++ word "else" :: (ns ++ rest))) c
        (mark ")" :: (ys ++ word "else" :: (ns ++ rest))) := hc.reads_of_ends (.of_none rfl)
    have hread := ReadsStatement.ite hcond hyes (hn.reads helse)
    simpa only [List.append_assoc, List.cons_append] using hread
  | _, _, _, @Statement.when closed cs ys c yes hc hy, rest, helse => by
    have hcond : Reads 0 (cs ++ mark ")" :: (ys ++ rest)) c (mark ")" :: (ys ++ rest)) := hc.reads_of_ends (.of_none rfl)
    have hread := ReadsStatement.when hcond (hy.reads fun _ => helse rfl) (helse rfl)
    simpa only [List.append_assoc, List.cons_append] using hread
  | closed, _, _, @Statement.loop _ cs bs c body hc hb, rest, helse => by
    have hcond : Reads 0 (cs ++ mark ")" :: (bs ++ rest)) c (mark ")" :: (bs ++ rest)) := hc.reads_of_ends (.of_none rfl)
    have hread := ReadsStatement.loop hcond (hb.reads helse)
    simpa only [List.append_assoc, List.cons_append] using hread
  | _, _, _, @Statement.expression ts e he, rest, _ => by
    obtain ⟨t, us, rfl, hstarts, -⟩ := he.head
    rw [List.append_assoc]
    refine .expression (fun hahead => ?_) (he.reads_of_ends (.of_none rfl))
    cases t with
    | word w => exact hstarts hahead
    | number n => exact hahead
    | mark m =>
      cases hahead
      exact absurd hstarts (by rintro (h | h) <;> exact absurd h (by decide))
termination_by structural _ _ _ h => h

theorem Statements.reads : ∀ {ts : List CToken} {ss : List CStmtTree}, Statements ts ss → ∀ {rest : List CToken},
    (∀ t ∈ rest.head?, t = mark "\x7d") → ReadsStatements (ts ++ rest) ss rest
  | _, _, .nil, rest, hend => .nil hend
  | _, _, @Statements.cons closed ts us s ss hs hss, rest, hend => by
    rw [List.append_assoc]
    obtain ⟨t, us', heq, hstarts⟩ := hs.head
    refine .cons ⟨t, ?_, hstarts.ne.1⟩ (hs.reads fun _ => hss.head? hend) (hss.reads hend)
    rw [heq]
    rfl
termination_by structural _ _ h => h

end

/-- **Tokens yield one row of statements at most.** -/
theorem Statements.unique {ts : List CToken} {ss ss' : List CStmtTree} (h : Statements ts ss) (h' : Statements ts ss') :
    ss = ss' := by
  have hread := @Statements.reads ts ss h [] nofun
  exact (hread.unique (@Statements.reads ts ss' h' [] nofun)).1

/-- **Tokens yield one statement at most.** -/
theorem Statement.unique {closed closed' : Bool} {ts : List CToken} {s s' : CStmtTree} (h : Statement closed ts s)
    (h' : Statement closed' ts s') : s = s' := by
  have hread := @Statement.reads closed ts s h [] nofun
  exact (hread.unique (@Statement.reads closed' ts s' h' [] nofun)).1

end MiniJava.CText
