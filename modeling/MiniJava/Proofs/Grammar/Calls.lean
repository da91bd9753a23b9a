import MiniJava.Proofs.Grammar.Reading
import Mathlib.Logic.Relation
/-!
# What the rules of the parser call

Each rule once more, with the rules that it calls left open (`Call.body`); answered by the rules themselves, it is the rule
(`Call.eval_body`).  So it can be said what is called on the way: no rule comes back to itself before a token has been read
(`Call.past_of_transGen`), and calls lie no deeper than a multiple of the tokens (`Call.within_eq`).
-/
namespace MiniJava

/-- What was read and the tokens after it, however many there are. -/
def Parsed.plain {α : Type} {n : Nat} (p : Parsed α n) : α × Tokens := (p.val, p.rest)

theorem Parsed.plain_eq {α : Type} {n : Nat} : @plain α n = fun p => (p.val, p.rest) := rfl

namespace Parse

/-! ## Calls -/

/-- The rules that call others, or themselves.  Each level of operators is a rule of its own. -/
inductive RuleName where
  | variableDeclarations | moreDeclarations | formals
  | operation (level : Nat)
  | operands (level : Nat)
  | negation | suffixes | arguments | moreArguments | atom
  | parenthesized | assignment | statement | statements
  | method | methods | classDeclaration | classDeclarations | mainClass | program
  deriving DecidableEq

/-- A call of a rule on tokens. -/
inductive Call where
  | variableDeclarations (ts : Tokens)
  | moreDeclarations (ts : Tokens)
  | formals (ts : Tokens)
  | operation (l : Nat) (ts : Tokens)
  | operands (l : Nat) (left : Expr) (ts : Tokens)
  | negation (ts : Tokens)
  | suffixes (e : Expr) (ts : Tokens)
  | arguments (ts : Tokens)
  | moreArguments (ts : Tokens)
  | atom (ts : Tokens)
  | parenthesized (ts : Tokens)
  | assignment (target : Variable) (ts : Tokens)
  | statement (ts : Tokens)
  | statements (stop : Token) (ts : Tokens)
  | method (ts : Tokens)
  | methods (ts : Tokens)
  | classDeclaration (ts : Tokens)
  | classDeclarations (ts : Tokens)
  | mainClass (ts : Tokens)
  | program (ts : Tokens)

namespace Call

def tokens : Call → Tokens
  | variableDeclarations ts | moreDeclarations ts | formals ts | operation _ ts | operands _ _ ts | negation ts
  | suffixes _ ts | arguments ts | moreArguments ts | atom ts | parenthesized ts | assignment _ ts | statement ts
  | statements _ ts | method ts | methods ts | classDeclaration ts | classDeclarations ts | mainClass ts | program ts => ts

def rule : Call → RuleName
  | variableDeclarations _ => .variableDeclarations
  | moreDeclarations _ => .moreDeclarations
  | formals _ => .formals
  | operation l _ => .operation l
  | operands l _ _ => .operands l
  | negation _ => .negation
  | suffixes _ _ => .suffixes
  | arguments _ => .arguments
  | moreArguments _ => .moreArguments
  | atom _ => .atom
  | parenthesized _ => .parenthesized
  | assignment _ _ => .assignment
  | statement _ => .statement
  | statements _ _ => .statements
  | method _ => .method
  | methods _ => .methods
  | classDeclaration _ => .classDeclaration
  | classDeclarations _ => .classDeclarations
  | mainClass _ => .mainClass
  | program _ => .program

/-- What a call answers if it succeeds: what was read, and the tokens behind it.  Nothing is left behind a program and its
classes. -/
abbrev Value : Call → Type
  | variableDeclarations _ | moreDeclarations _ | formals _ => List Declaration × Tokens
  | operation _ _ | operands _ _ _ | negation _ | suffixes _ _ | atom _ | parenthesized _ => Expr × Tokens
  | arguments _ | moreArguments _ => List Expr × Tokens
  | assignment _ _ | statement _ => Stmt × Tokens
  | statements _ _ => List Stmt × Tokens
  | method _ => Method × Tokens
  | methods _ => List Method × Tokens
  | classDeclaration _ => ClassDecl × Tokens
  | classDeclarations _ => List ClassDecl
  | mainClass _ => MainClass × Tokens
  | program _ => Program

/-- What a call comes to. -/
def run : (c : Call) → Except Refusal c.Value
  | variableDeclarations ts => .ok (Parse.variableDeclarations ts).plain
  | moreDeclarations ts => Parsed.plain <$> Parse.moreDeclarations ts
  | formals ts => Parsed.plain <$> Parse.formals ts
  | operation l ts => Parsed.plain <$> Parse.operation l ts
  | operands l left ts => Parsed.plain <$> Parse.operands l left ts
  | negation ts => Parsed.plain <$> Parse.negation ts
  | suffixes e ts => Parsed.plain <$> Parse.suffixes e ts
  | arguments ts => Parsed.plain <$> Parse.arguments ts
  | moreArguments ts => Parsed.plain <$> Parse.moreArguments ts
  | atom ts => Parsed.plain <$> Parse.atom ts
  | parenthesized ts => Parsed.plain <$> Parse.parenthesized ts
  | assignment target ts => Parsed.plain <$> Parse.assignment target ts
  | statement ts => Parsed.plain <$> Parse.statement ts
  | statements stop ts => Parsed.plain <$> Parse.statements stop ts
  | method ts => Parsed.plain <$> Parse.method ts
  | methods ts => Parsed.plain <$> Parse.methods ts
  | classDeclaration ts => Parsed.plain <$> Parse.classDeclaration ts
  | classDeclarations ts => Parse.classDeclarations ts
  | mainClass ts => Parsed.plain <$> Parse.mainClass ts
  | program ts => Parse.program ts

/-- The tokens behind what was read. -/
def rest : (c : Call) → c.Value → Tokens
  | variableDeclarations _, v | moreDeclarations _, v | formals _, v => v.2
  | operation _ _, v | operands _ _ _, v | negation _, v | suffixes _ _, v | atom _, v | parenthesized _, v => v.2
  | arguments _, v | moreArguments _, v => v.2
  | assignment _ _, v | statement _, v => v.2
  | statements _ _, v => v.2
  | method _, v => v.2
  | methods _, v => v.2
  | classDeclaration _, v => v.2
  | mainClass _, v => v.2
  | classDeclarations _, _ | program _, _ => []

end Call

/-! ## Rules with their calls left open -/

/-- What a rule does: it comes to an end, or calls a rule and goes on with what that answers. -/
inductive Body (α : Type) where
  | done (r : Except Refusal α)
  | call (c : Call) (go : c.Value → Body α)

namespace Body

variable {α β : Type}

def bind (x : Body α) (f : α → Body β) : Body β :=
  match x with
  | done (.ok a) => f a
  | done (.error e) => done (.error e)
  | call c go => call c fun v => (go v).bind f

instance : Monad Body where
  pure a := done (.ok a)
  bind := bind

/-- What a rule does that calls none of the rules. -/
def read {n : Nat} (r : Except Refusal (Parsed α n)) : Body (α × Tokens) := done (Parsed.plain <$> r)

def ask (c : Call) : Body c.Value := call c pure

/-- What a rule comes to, by what the rules that it calls do. -/
def eval (answers : (c : Call) → Except Refusal c.Value) : Body α → Except Refusal α
  | done r => r
  | call c go => do (go (← answers c)).eval answers

end Body

/-! ## The bodies of the rules -/

namespace Body

def variableDeclarations (ts : Tokens) : Body (List Declaration × Tokens) :=
  match variableDeclaration ts with
  | .ok ⟨d, ts₁, _⟩ => do
    let (ds, ts₂) ← ask (.variableDeclarations ts₁)
    return (d :: ds, ts₂)
  | .error _ => return ([], ts)

def moreDeclarations (ts : Tokens) : Body (List Declaration × Tokens) :=
  match ts with
  | ⟨.comma, _⟩ :: ts => do
    let (d, ts₁) ← read (declaration ts)
    let (ds, ts₂) ← ask (.moreDeclarations ts₁)
    return (d :: ds, ts₂)
  | ts => return ([], ts)

def formals (ts : Tokens) : Body (List Declaration × Tokens) :=
  match ts with
  | ⟨.closeParen, s⟩ :: ts => return ([], ⟨.closeParen, s⟩ :: ts)
  | ts => do
    let (d, ts₁) ← read (declaration ts)
    let (ds, ts₂) ← ask (.moreDeclarations ts₁)
    return (d :: ds, ts₂)

def operation (l : Nat) (ts : Tokens) : Body (Expr × Tokens) :=
  if l < levels then do
    let (left, ts₁) ← ask (.operation (l + 1) ts)
    ask (.operands l left ts₁)
  else ask (.negation ts)

def operands (l : Nat) (left : Expr) (ts : Tokens) : Body (Expr × Tokens) :=
  match ts with
  | [] => return (left, [])
  | t :: ts =>
    match operator? t.val with
    | some op =>
      if level op = l then do
        let (right, ts₁) ← ask (.operation (l + 1) ts)
        ask (.operands l (.binary (unmarked left.span right.span) left op right) ts₁)
      else return (left, t :: ts)
    | none => return (left, t :: ts)

def negation (ts : Tokens) : Body (Expr × Tokens) :=
  match ts with
  | ⟨.not, s⟩ :: ts => do
    let (e, ts₁) ← ask (.negation ts)
    return (.not (unmarked s e.span) e, ts₁)
  | ts => do
    let (e, ts₁) ← ask (.atom ts)
    ask (.suffixes e ts₁)

def suffixes (e : Expr) (ts : Tokens) : Body (Expr × Tokens) :=
  match ts with
  | ⟨.openSquare, _⟩ :: ts => do
    let (i, ts₁) ← ask (.operation 0 ts)
    let (close, ts₂) ← read (expect .closeSquare ts₁)
    ask (.suffixes (.index (unmarked e.span close) e i) ts₂)
  | ⟨.period, _⟩ :: ⟨.keyword .lengthKw, s⟩ :: ts => ask (.suffixes (.length (unmarked e.span s) e) ts)
  | ⟨.period, _⟩ :: ts => do
    let (method, ts₁) ← read (identifier ts)
    let (_, ts₂) ← read (expect .openParen ts₁)
    let (args, ts₃) ← ask (.arguments ts₂)
    let (close, ts₄) ← read (expect .closeParen ts₃)
    ask (.suffixes (.call (unmarked e.span close) e method args none) ts₄)
  | ts => return (e, ts)

def arguments (ts : Tokens) : Body (List Expr × Tokens) :=
  match ts with
  | ⟨.closeParen, s⟩ :: ts => return ([], ⟨.closeParen, s⟩ :: ts)
  | ts => do
    let (e, ts₁) ← ask (.operation 0 ts)
    let (es, ts₂) ← ask (.moreArguments ts₁)
    return (e :: es, ts₂)

def moreArguments (ts : Tokens) : Body (List Expr × Tokens) :=
  match ts with
  | ⟨.comma, _⟩ :: ts => do
    let (e, ts₁) ← ask (.operation 0 ts)
    let (es, ts₂) ← ask (.moreArguments ts₁)
    return (e :: es, ts₂)
  | ts => return ([], ts)

def atom (ts : Tokens) : Body (Expr × Tokens) :=
  match ts with
  | ⟨.literal n, s⟩ :: ts => return (.literal (unmarked s s) n, ts)
  | ⟨.keyword .trueKw, s⟩ :: ts => return (.bool (unmarked s s) true, ts)
  | ⟨.keyword .falseKw, s⟩ :: ts => return (.bool (unmarked s s) false, ts)
  | ⟨.keyword .thisKw, s⟩ :: ts => return (.self (unmarked s s), ts)
  | ⟨.ident x, s⟩ :: ts => return (.read (unmarked s s) (.unmarked ⟨x, s⟩), ts)
  | ⟨.openParen, _⟩ :: ts => do
    let (e, ts₁) ← ask (.operation 0 ts)
    let (_, ts₂) ← read (expect .closeParen ts₁)
    return (e, ts₂)
  | ⟨.keyword .newKw, s⟩ :: ⟨.keyword .intKw, _⟩ :: ts => do
    let (_, ts₁) ← read (expect .openSquare ts)
    let (n, ts₂) ← ask (.operation 0 ts₁)
    let (close, ts₃) ← read (expect .closeSquare ts₂)
    return (.newArray (unmarked s close) n, ts₃)
  | ⟨.keyword .newKw, s⟩ :: ts => do
    let (c, ts₁) ← read (identifier ts)
    let (_, ts₂) ← read (expect .openParen ts₁)
    let (close, ts₃) ← read (expect .closeParen ts₂)
    return (.newObject (unmarked s close) c, ts₃)
  | ts => done (refuse .expectedExpression ts)

def parenthesized (ts : Tokens) : Body (Expr × Tokens) := do
  let (_, ts₁) ← read (expect .openParen ts)
  let (e, ts₂) ← ask (.operation 0 ts₁)
  let (_, ts₃) ← read (expect .closeParen ts₂)
  return (e, ts₃)

def assignment (target : Variable) (ts : Tokens) : Body (Stmt × Tokens) :=
  match ts with
  | ⟨.openSquare, _⟩ :: ts => do
    let (i, ts₁) ← ask (.operation 0 ts)
    let (_, ts₂) ← read (expect .closeSquare ts₁)
    let (_, ts₃) ← read (expect .assign ts₂)
    let (e, ts₄) ← ask (.operation 0 ts₃)
    let (_, ts₅) ← read (expect .semicolon ts₄)
    return (.store target i e, ts₅)
  | ts => do
    let (_, ts₁) ← read (expect .assign ts)
    let (e, ts₂) ← ask (.operation 0 ts₁)
    let (_, ts₃) ← read (expect .semicolon ts₂)
    return (.assign target e, ts₃)

def statement (ts : Tokens) : Body (Stmt × Tokens) :=
  match ts with
  | ⟨.openCurly, _⟩ :: ts => do
    let (body, ts₁) ← ask (.statements .closeCurly ts)
    let (_, ts₂) ← read (expect .closeCurly ts₁)
    return (.block body, ts₂)
  | ⟨.keyword .ifKw, _⟩ :: ts => do
    let (condition, ts₁) ← ask (.parenthesized ts)
    let (yes, ts₂) ← ask (.statement ts₁)
    let (_, ts₃) ← read (expect (.keyword .elseKw) ts₂)
    let (no, ts₄) ← ask (.statement ts₃)
    return (.ite condition yes no, ts₄)
  | ⟨.keyword .whileKw, _⟩ :: ts => do
    let (condition, ts₁) ← ask (.parenthesized ts)
    let (body, ts₂) ← ask (.statement ts₁)
    return (.loop condition body, ts₂)
  | ⟨.keyword .printlnKw, _⟩ :: ts => do
    let (e, ts₁) ← ask (.parenthesized ts)
    let (_, ts₂) ← read (expect .semicolon ts₁)
    return (.print e, ts₂)
  | ⟨.ident x, s⟩ :: ts => ask (.assignment (.unmarked ⟨x, s⟩) ts)
  | ts => done (refuse .expectedStatement ts)

def statements (stop : Token) (ts : Tokens) : Body (List Stmt × Tokens) :=
  match ts with
  | [] => return ([], [])
  | t :: ts =>
    if t.val = stop then return ([], t :: ts)
    else do
      let (s, ts₁) ← ask (.statement (t :: ts))
      let (ss, ts₂) ← ask (.statements stop ts₁)
      return (s :: ss, ts₂)

def method (ts : Tokens) : Body (Method × Tokens) := do
  let (_, ts₁) ← read (expect (.keyword .publicKw) ts)
  let (returns, ts₂) ← read (type ts₁)
  let (name, ts₃) ← read (identifier ts₂)
  let (_, ts₄) ← read (expect .openParen ts₃)
  let (formals, ts₅) ← ask (.formals ts₄)
  let (_, ts₆) ← read (expectAll [.closeParen, .openCurly] ts₅)
  let (locals, ts₇) ← ask (.variableDeclarations ts₆)
  let (body, ts₈) ← ask (.statements (.keyword .returnKw) ts₇)
  let (_, ts₉) ← read (expect (.keyword .returnKw) ts₈)
  let (result, ts₁₀) ← ask (.operation 0 ts₉)
  let (_, ts₁₁) ← read (expectAll [.semicolon, .closeCurly] ts₁₀)
  return (⟨name, returns, formals, locals, body, result⟩, ts₁₁)

def methods (ts : Tokens) : Body (List Method × Tokens) :=
  match ts with
  | ⟨.keyword .publicKw, s⟩ :: ts => do
    let (m, ts₁) ← ask (.method (⟨.keyword .publicKw, s⟩ :: ts))
    let (ms, ts₂) ← ask (.methods ts₁)
    return (m :: ms, ts₂)
  | ts => return ([], ts)

def classDeclaration (ts : Tokens) : Body (ClassDecl × Tokens) :=
  match ts with
  | ⟨.keyword .classKw, _⟩ :: ts => do
    let (name, ts₁) ← read (identifier ts)
    let (parent, ts₂) ← read (parent ts₁)
    let (_, ts₃) ← read (expect .openCurly ts₂)
    let (fields, ts₄) ← ask (.variableDeclarations ts₃)
    let (methods, ts₅) ← ask (.methods ts₄)
    let (_, ts₆) ← read (expect .closeCurly ts₅)
    return (⟨name, parent, fields, methods⟩, ts₆)
  | ts => done (refuse .expectedClass ts)

def classDeclarations (ts : Tokens) : Body (List ClassDecl) :=
  match ts with
  | [] => return []
  | t :: ts => do
    let (c, ts₁) ← ask (.classDeclaration (t :: ts))
    return c :: (← ask (.classDeclarations ts₁))

def mainClass (ts : Tokens) : Body (MainClass × Tokens) := do
  let (_, ts₁) ← read (expect (.keyword .classKw) ts)
  let (name, ts₂) ← read (identifier ts₁)
  let (_, ts₃) ← read (expectAll [.openCurly, .keyword .publicKw, .keyword .staticKw, .keyword .voidKw, .keyword .mainKw,
    .openParen, .keyword .stringKw, .openSquare, .closeSquare] ts₂)
  let (argument, ts₄) ← read (identifier ts₃)
  let (_, ts₅) ← read (expectAll [.closeParen, .openCurly] ts₄)
  let (body, ts₆) ← ask (.statement ts₅)
  let (_, ts₇) ← read (expectAll [.closeCurly, .closeCurly] ts₆)
  return (⟨name, argument, body⟩, ts₇)

def program (ts : Tokens) : Body Program := do
  let (main, ts₁) ← ask (.mainClass ts)
  return ⟨main, ← ask (.classDeclarations ts₁)⟩

end Body

/-- What the called rule does. -/
def Call.body : (c : Call) → Body c.Value
  | variableDeclarations ts => .variableDeclarations ts
  | moreDeclarations ts => .moreDeclarations ts
  | formals ts => .formals ts
  | operation l ts => .operation l ts
  | operands l left ts => .operands l left ts
  | negation ts => .negation ts
  | suffixes e ts => .suffixes e ts
  | arguments ts => .arguments ts
  | moreArguments ts => .moreArguments ts
  | atom ts => .atom ts
  | parenthesized ts => .parenthesized ts
  | assignment target ts => .assignment target ts
  | statement ts => .statement ts
  | statements stop ts => .statements stop ts
  | method ts => .method ts
  | methods ts => .methods ts
  | classDeclaration ts => .classDeclaration ts
  | classDeclarations ts => .classDeclarations ts
  | mainClass ts => .mainClass ts
  | program ts => .program ts

/-! ## The bodies are those of the rules -/

namespace Body

variable {α β : Type} {answers : (c : Call) → Except Refusal c.Value}

theorem ok_eq_pure {ε : Type} (a : α) : (.ok a : Except ε α) = pure a := rfl

@[simp]
theorem map_refuse (f : α → β) (cause : SyntaxError) (ts : Tokens) : f <$> (refuse cause ts) = refuse cause ts := by
  cases ts <;> rfl

@[simp]
theorem eval_bind (x : Body α) (f : α → Body β) :
    (x >>= f).eval answers = x.eval answers >>= fun a => (f a).eval answers := by
  induction x with
  | done r => cases r <;> rfl
  | call c go ih =>
    show (answers c >>= fun v => eval answers (go v >>= f)) = (answers c >>= fun v => eval answers (go v)) >>= _
    rw [bind_assoc]
    exact bind_congr fun v => ih v

@[simp]
theorem eval_call (c : Call) (go : c.Value → Body α) :
    (call c go).eval answers = answers c >>= fun v => (go v).eval answers := rfl

@[simp]
theorem eval_done (r : Except Refusal α) : (done r).eval answers = r := rfl

@[simp]
theorem eval_read {n : Nat} (r : Except Refusal (Parsed α n)) : (read r).eval answers = Parsed.plain <$> r := rfl

@[simp]
theorem eval_pure (a : α) : (pure a : Body α).eval answers = pure a := rfl

theorem eval_variableDeclarations (ts : Tokens) :
    (Body.variableDeclarations ts).eval Call.run = .ok (Parse.variableDeclarations ts).plain := by
  rw [Parse.variableDeclarations, Body.variableDeclarations]
  cases variableDeclaration ts with
  | ok v => rfl
  | error e => rfl

theorem eval_moreDeclarations (ts : Tokens) :
    (Body.moreDeclarations ts).eval Call.run = Parsed.plain <$> Parse.moreDeclarations ts := by
  rw [Parse.moreDeclarations.eq_def, Body.moreDeclarations.eq_def]
  split <;> simp [ask, Call.run, Parsed.plain_eq, ok_eq_pure]

theorem eval_formals (ts : Tokens) : (Body.formals ts).eval Call.run = Parsed.plain <$> Parse.formals ts := by
  rw [Parse.formals.eq_def, Body.formals.eq_def]
  split <;> simp [ask, Call.run, Parsed.plain_eq, ok_eq_pure]

theorem eval_operation (l : Nat) (ts : Tokens) :
    (Body.operation l ts).eval Call.run = Parsed.plain <$> Parse.operation l ts := by
  unfold Parse.operation Body.operation
  split <;> simp [ask, Call.run, Parsed.plain_eq]

theorem eval_operands (l : Nat) (left : Expr) (ts : Tokens) :
    (Body.operands l left ts).eval Call.run = Parsed.plain <$> Parse.operands l left ts := by
  rw [Parse.operands.eq_def, Body.operands.eq_def]
  cases ts with
  | nil => rfl
  | cons t ts =>
    dsimp only
    cases operator? t.val with
    | none => rfl
    | some op =>
      dsimp only
      split <;> simp [ask, Call.run, Parsed.plain_eq, ok_eq_pure]

theorem eval_negation (ts : Tokens) : (Body.negation ts).eval Call.run = Parsed.plain <$> Parse.negation ts := by
  rw [Parse.negation.eq_def, Body.negation.eq_def]
  split <;> simp [ask, Call.run, Parsed.plain_eq]

theorem eval_suffixes (e : Expr) (ts : Tokens) :
    (Body.suffixes e ts).eval Call.run = Parsed.plain <$> Parse.suffixes e ts := by
  rw [Parse.suffixes.eq_def, Body.suffixes.eq_def]
  split <;> simp [ask, Call.run, Parsed.plain_eq, ok_eq_pure]

theorem eval_arguments (ts : Tokens) : (Body.arguments ts).eval Call.run = Parsed.plain <$> Parse.arguments ts := by
  rw [Parse.arguments.eq_def, Body.arguments.eq_def]
  split <;> simp [ask, Call.run, Parsed.plain_eq, ok_eq_pure]

theorem eval_moreArguments (ts : Tokens) :
    (Body.moreArguments ts).eval Call.run = Parsed.plain <$> Parse.moreArguments ts := by
  rw [Parse.moreArguments.eq_def, Body.moreArguments.eq_def]
  split <;> simp [ask, Call.run, Parsed.plain_eq, ok_eq_pure]

theorem eval_atom (ts : Tokens) : (Body.atom ts).eval Call.run = Parsed.plain <$> Parse.atom ts := by
  rw [Parse.atom.eq_def, Body.atom.eq_def]
  split <;> simp [ask, Call.run, Parsed.plain_eq, ok_eq_pure]

theorem eval_parenthesized (ts : Tokens) :
    (Body.parenthesized ts).eval Call.run = Parsed.plain <$> Parse.parenthesized ts := by
  rw [Parse.parenthesized, Body.parenthesized]
  simp [ask, Call.run, Parsed.plain_eq, expression]

theorem eval_assignment (target : Variable) (ts : Tokens) :
    (Body.assignment target ts).eval Call.run = Parsed.plain <$> Parse.assignment target ts := by
  rw [Parse.assignment.eq_def, Body.assignment.eq_def]
  split <;> simp [ask, Call.run, Parsed.plain_eq, expression]

theorem eval_statement (ts : Tokens) : (Body.statement ts).eval Call.run = Parsed.plain <$> Parse.statement ts := by
  rw [Parse.statement.eq_def, Body.statement.eq_def]
  split <;> simp [ask, Call.run, Parsed.plain_eq]

theorem eval_statements (stop : Token) (ts : Tokens) :
    (Body.statements stop ts).eval Call.run = Parsed.plain <$> Parse.statements stop ts := by
  rw [Parse.statements.eq_def, Body.statements.eq_def]
  cases ts with
  | nil => rfl
  | cons t ts =>
    dsimp only
    split <;> simp [ask, Call.run, Parsed.plain_eq, ok_eq_pure]

theorem eval_method (ts : Tokens) : (Body.method ts).eval Call.run = Parsed.plain <$> Parse.method ts := by
  rw [Parse.method, Body.method]
  simp [ask, Call.run, Parsed.plain_eq, expression, ok_eq_pure]

theorem eval_methods (ts : Tokens) : (Body.methods ts).eval Call.run = Parsed.plain <$> Parse.methods ts := by
  rw [Parse.methods.eq_def, Body.methods.eq_def]
  split <;> simp [ask, Call.run, Parsed.plain_eq, ok_eq_pure]

theorem eval_classDeclaration (ts : Tokens) :
    (Body.classDeclaration ts).eval Call.run = Parsed.plain <$> Parse.classDeclaration ts := by
  rw [Parse.classDeclaration.eq_def, Body.classDeclaration.eq_def]
  split <;> simp [ask, Call.run, Parsed.plain_eq, ok_eq_pure]

theorem eval_classDeclarations (ts : Tokens) :
    (Body.classDeclarations ts).eval Call.run = Parse.classDeclarations ts := by
  rw [Parse.classDeclarations.eq_def, Body.classDeclarations.eq_def]
  split <;> simp [ask, Call.run, Parsed.plain_eq, ok_eq_pure]

theorem eval_mainClass (ts : Tokens) : (Body.mainClass ts).eval Call.run = Parsed.plain <$> Parse.mainClass ts := by
  rw [Parse.mainClass, Body.mainClass]
  simp [ask, Call.run, Parsed.plain_eq]

theorem eval_program (ts : Tokens) : (Body.program ts).eval Call.run = Parse.program ts := by
  rw [Parse.program, Body.program]
  simp [ask, Call.run, Parsed.plain_eq]

end Body

/-- **Each rule does what its body says**, where the rules that it calls do so too. -/
theorem Call.eval_body (c : Call) : c.body.eval run = c.run := by
  cases c with
  | variableDeclarations ts => exact Body.eval_variableDeclarations ts
  | moreDeclarations ts => exact Body.eval_moreDeclarations ts
  | formals ts => exact Body.eval_formals ts
  | operation l ts => exact Body.eval_operation l ts
  | operands l left ts => exact Body.eval_operands l left ts
  | negation ts => exact Body.eval_negation ts
  | suffixes e ts => exact Body.eval_suffixes e ts
  | arguments ts => exact Body.eval_arguments ts
  | moreArguments ts => exact Body.eval_moreArguments ts
  | atom ts => exact Body.eval_atom ts
  | parenthesized ts => exact Body.eval_parenthesized ts
  | assignment target ts => exact Body.eval_assignment target ts
  | statement ts => exact Body.eval_statement ts
  | statements stop ts => exact Body.eval_statements stop ts
  | method ts => exact Body.eval_method ts
  | methods ts => exact Body.eval_methods ts
  | classDeclaration ts => exact Body.eval_classDeclaration ts
  | classDeclarations ts => exact Body.eval_classDeclarations ts
  | mainClass ts => exact Body.eval_mainClass ts
  | program ts => exact Body.eval_program ts

/-! ## How far a rule has come -/

/-- The rule leaves the end of the tokens that it is given. -/
def Eats {α : Type} {n : Nat} (r : Except Refusal (Parsed α n)) (ts : Tokens) : Prop := ∀ p, r = .ok p → p.rest <:+ ts

section Eats

open Grammar

theorem eats_of_splits {α : Type} {n : Nat} {r : Except Refusal (Parsed α n)} {ts : Tokens} {R : Tokens → α → Prop}
    (h : ∀ {a rest}, Reads r a rest → Splits R ts a rest) : Eats r ts := by
  intro p hp
  obtain ⟨us, -, hts⟩ := h ⟨p.lt, hp⟩
  exact ⟨us, hts.symm⟩

theorem eats_expect (t : Token) (ts : Tokens) : Eats (expect t ts) ts := fun p h =>
  ⟨[⟨t, p.val⟩], (reads_expect.1 ⟨p.lt, h⟩).symm⟩

theorem eats_expectAll (expected : List Token) (ts : Tokens) : Eats (expectAll expected ts) ts :=
  @eats_of_splits _ _ _ _ (fun us _ => Fixed expected us) reads_expectAll.1

theorem eats_identifier (ts : Tokens) : Eats (identifier ts) ts := eats_of_splits reads_identifier.1

theorem eats_type (ts : Tokens) : Eats (type ts) ts := eats_of_splits splits_of_reads_type

theorem eats_declaration (ts : Tokens) : Eats (declaration ts) ts := eats_of_splits reads_declaration.1

theorem eats_variableDeclaration (ts : Tokens) : Eats (variableDeclaration ts) ts :=
  eats_of_splits reads_variableDeclaration.1

theorem eats_parent (ts : Tokens) : Eats (parent ts) ts := by
  intro p h
  unfold parent at h
  split at h
  · obtain ⟨x, hx, h⟩ := bind_eq_ok.1 h
    cases h
    exact (eats_identifier _ x hx).trans (List.suffix_cons _ _)
  · cases h
    exact List.suffix_rfl

end Eats

namespace Call

/-- The call has read a token at least when it stands before `us`. -/
def Past (c : Call) (us : Tokens) : Prop := us <:+ c.tokens ∧ us.length < c.tokens.length

theorem Past.suffix {c : Call} {us vs : Tokens} (h : c.Past us) (hvs : vs <:+ us) : c.Past vs :=
  ⟨hvs.trans h.1, Nat.lt_of_le_of_lt hvs.length_le h.2⟩

theorem past_tail {c : Call} {t : Located Token} {ts : Tokens} (h : c.tokens = t :: ts) : c.Past ts := by
  rw [Past, h]
  exact ⟨List.suffix_cons t ts, Nat.lt_succ_self _⟩

/-- What a rule leaves of its tokens: the end of them.  Lists and what may follow an expression may be empty, all other
rules have read a token. -/
def Leaves (c : Call) (us : Tokens) : Prop :=
  match c with
  | operation _ _ | negation _ | atom _ | parenthesized _ | assignment _ _ | statement _ | method _ | classDeclaration _
  | mainClass _ => c.Past us
  | _ => us <:+ c.tokens

theorem Leaves.suffix {c : Call} {us : Tokens} (h : c.Leaves us) : us <:+ c.tokens := by
  cases c with
  | operation l ts => exact h.1
  | negation ts => exact h.1
  | atom ts => exact h.1
  | parenthesized ts => exact h.1
  | assignment target ts => exact h.1
  | statement ts => exact h.1
  | method ts => exact h.1
  | classDeclaration ts => exact h.1
  | mainClass ts => exact h.1
  | _ => exact h

end Call

/-- Where a rule calls another before it has read a token, the other one is of a lower rank. -/
def RuleName.rank : RuleName → Nat
  | arguments => 7
  | operation l => 2 + (levels - l)
  | negation | statements | methods | classDeclarations | program => 1
  | _ => 0

theorem RuleName.rank_le (r : RuleName) : r.rank ≤ 7 := by
  cases r with
  | operation l =>
    rw [rank, levels]
    omega
  | _ => simp [rank]

/-- A token at least has been read before the call `d` out of `c`, or its rule is of a lower rank. -/
def Call.Below (d c : Call) : Prop := c.Past d.tokens ∨ d.tokens = c.tokens ∧ d.rule.rank < c.rule.rank

/-- A bound of what lies below a call. -/
def Call.height (c : Call) : Nat := 8 * c.tokens.length + c.rule.rank

namespace Call.Below

variable {c d e : Call}

theorem trans (h : e.Below d) (h' : d.Below c) : e.Below c := by
  rcases h with h | ⟨h, hr⟩
  · rcases h' with h' | ⟨h', -⟩
    · exact .inl (h'.suffix h.1)
    · exact .inl (by rwa [Past, ← h'])
  · rcases h' with h' | ⟨h', hr'⟩
    · exact .inl (by rwa [h])
    · exact .inr ⟨h.trans h', Nat.lt_trans hr hr'⟩

theorem height_lt (h : d.Below c) : d.height < c.height := by
  rw [height, height]
  rcases h with h | ⟨h, hr⟩
  · have := h.2
    have := d.rule.rank_le
    omega
  · rw [h]
    omega

/-- No rule is of a lower rank than itself. -/
theorem past_of_rule_eq (h : d.Below c) (hrule : d.rule = c.rule) : c.Past d.tokens := by
  rcases h with h | ⟨-, hr⟩
  · exact h
  · rw [hrule] at hr
    exact absurd hr (Nat.lt_irrefl _)

end Call.Below

/-! ## What is called in a body -/

namespace Body

variable {α β : Type}

/-- `P` holds of each call, whatever the calls before it have left of their tokens, and `Q` of what is answered. -/
def Holds (P : Call → Prop) (Q : α → Prop) : Body α → Prop
  | done r => ∀ a, r = .ok a → Q a
  | call c go => P c ∧ ∀ v, c.Leaves (c.rest v) → (go v).Holds P Q

namespace Holds

section Steps

variable {P : Call → Prop} {Q : β → Prop}

theorem pure {b : β} (h : Q b) : (Pure.pure b : Body β).Holds P Q := fun _ heq => Except.ok.inj heq ▸ h

theorem refuse {cause : SyntaxError} {ts : Tokens} : (done (refuse cause ts) : Body β).Holds P Q := by
  intro a h
  cases ts <;> cases h

theorem ask {c : Call} {f : c.Value → Body β} (h : P c) (hf : ∀ v, c.Leaves (c.rest v) → (f v).Holds P Q) :
    (Body.ask c >>= f).Holds P Q := ⟨h, hf⟩

theorem last {c : Call} {Q : c.Value → Prop} (h : P c) (hQ : ∀ v, c.Leaves (c.rest v) → Q v) : (Body.ask c).Holds P Q :=
  ⟨h, fun v hv => pure (hQ v hv)⟩

theorem read {n : Nat} {r : Except Refusal (Parsed α n)} {f : α × Tokens → Body β}
    (hf : ∀ p, r = .ok p → (f p.plain).Holds P Q) : (Body.read r >>= f).Holds P Q := by
  cases r with
  | ok p => exact hf p rfl
  | error e =>
    intro b hb
    cases hb

end Steps

section Past

variable {c d : Call} {Q : β → Prop}

/-- Once a token has been read, any rule may be called. -/
theorem askPast {f : d.Value → Body β} (h : c.Past d.tokens) (hf : ∀ v, c.Past (d.rest v) → (f v).Holds (·.Below c) Q) :
    (Body.ask d >>= f).Holds (·.Below c) Q :=
  ask (.inl h) fun v hv => hf v (h.suffix hv.suffix)

/-- A rule that reads a token itself may be called before one has been read, if it is of a lower rank. -/
theorem askFirst {f : d.Value → Body β} (htokens : d.tokens = c.tokens) (hrank : d.rule.rank < c.rule.rank)
    (hreads : ∀ us, d.Leaves us → d.Past us) (hf : ∀ v, c.Past (d.rest v) → (f v).Holds (·.Below c) Q) :
    (Body.ask d >>= f).Holds (·.Below c) Q := by
  refine ask (.inr ⟨htokens, hrank⟩) fun v hv => hf v ?_
  rw [Call.Past, ← htokens]
  exact hreads _ hv

theorem lastPast {Q : d.Value → Prop} (h : c.Past d.tokens) (hQ : ∀ v, c.Past (d.rest v) → Q v) :
    (Body.ask d).Holds (·.Below c) Q :=
  last (.inl h) fun v hv => hQ v (h.suffix hv.suffix)

theorem readPast {n : Nat} {us : Tokens} {r : Except Refusal (Parsed α n)} {f : α × Tokens → Body β} (h : c.Past us)
    (hr : Eats r us) (hf : ∀ v, c.Past v.2 → (f v).Holds (·.Below c) Q) : (Body.read r >>= f).Holds (·.Below c) Q :=
  read fun p hp => hf p.plain (h.suffix (hr p hp))

/-- The first token is read. -/
theorem readFirst {r : Except Refusal (Parsed α c.tokens.length)} {f : α × Tokens → Body β} (hr : Eats r c.tokens)
    (hf : ∀ v, c.Past v.2 → (f v).Holds (·.Below c) Q) : (Body.read r >>= f).Holds (·.Below c) Q :=
  read fun p hp => hf p.plain ⟨hr p hp, p.lt⟩

end Past

end Holds

open Call (past_tail)

theorem holds_variableDeclarations (ts : Tokens) :
    (Body.variableDeclarations ts).Holds (·.Below (.variableDeclarations ts)) fun v => v.2 <:+ ts := by
  unfold Body.variableDeclarations
  split
  · rename_i d ts₁ h₁ h
    have p₁ : (Call.variableDeclarations ts).Past ts₁ := ⟨eats_variableDeclaration ts _ h, h₁⟩
    refine .askPast p₁ fun _ p₂ => ?_
    exact .pure p₂.1
  · exact .pure List.suffix_rfl

theorem holds_moreDeclarations (ts : Tokens) :
    (Body.moreDeclarations ts).Holds (·.Below (.moreDeclarations ts)) fun v => v.2 <:+ ts := by
  unfold Body.moreDeclarations
  split
  · refine .readPast (past_tail rfl) (eats_declaration _) fun _ p₁ => ?_
    refine .askPast p₁ fun _ p₂ => ?_
    exact .pure p₂.1
  · exact .pure List.suffix_rfl

theorem holds_formals (ts : Tokens) :
    (Body.formals ts).Holds (·.Below (.formals ts)) fun v => v.2 <:+ ts := by
  unfold Body.formals
  split
  · exact .pure List.suffix_rfl
  · refine .readFirst (eats_declaration _) fun _ p₁ => ?_
    refine .askPast p₁ fun _ p₂ => ?_
    exact .pure p₂.1

theorem holds_operation (l : Nat) (ts : Tokens) :
    (Body.operation l ts).Holds (·.Below (.operation l ts)) fun v => Call.Past (.operation l ts) v.2 := by
  unfold Body.operation
  split
  · rename_i hl
    -- the next level is one higher, and its rank is one lower
    refine .askFirst rfl ?_ (fun _ h => h) fun _ p₁ => ?_
    · show 2 + (levels - (l + 1)) < 2 + (levels - l)
      omega
    exact .lastPast p₁ fun _ p₂ => p₂
  · refine .last (.inr ⟨rfl, ?_⟩) fun _ p₁ => p₁
    show 1 < 2 + (levels - l)
    omega

theorem holds_operands (l : Nat) (left : Expr) (ts : Tokens) :
    (Body.operands l left ts).Holds (·.Below (.operands l left ts)) fun v => v.2 <:+ ts := by
  unfold Body.operands
  cases ts with
  | nil => exact .pure List.suffix_rfl
  | cons t ts =>
    dsimp only
    split
    · split
      · refine .askPast (past_tail rfl) fun _ p₁ => ?_
        exact .lastPast p₁ fun _ p₂ => p₂.1
      · exact .pure List.suffix_rfl
    · exact .pure List.suffix_rfl

theorem holds_negation (ts : Tokens) :
    (Body.negation ts).Holds (·.Below (.negation ts)) fun v => Call.Past (.negation ts) v.2 := by
  unfold Body.negation
  split
  · refine .askPast (past_tail rfl) fun _ p₁ => ?_
    exact .pure p₁
  · refine .askFirst rfl Nat.one_pos (fun _ h => h) fun _ p₁ => ?_
    exact .lastPast p₁ fun _ p₂ => p₂

theorem holds_suffixes (e : Expr) (ts : Tokens) :
    (Body.suffixes e ts).Holds (·.Below (.suffixes e ts)) fun v => v.2 <:+ ts := by
  unfold Body.suffixes
  split
  · refine .askPast (past_tail rfl) fun _ p₁ => ?_
    refine .readPast p₁ (eats_expect _ _) fun _ p₂ => ?_
    exact .lastPast p₂ fun _ p₃ => p₃.1
  · exact .lastPast ((past_tail rfl).suffix (List.suffix_cons _ _)) fun _ p₁ => p₁.1
  · refine .readPast (past_tail rfl) (eats_identifier _) fun _ p₁ => ?_
    refine .readPast p₁ (eats_expect _ _) fun _ p₂ => ?_
    refine .askPast p₂ fun _ p₃ => ?_
    refine .readPast p₃ (eats_expect _ _) fun _ p₄ => ?_
    exact .lastPast p₄ fun _ p₅ => p₅.1
  · exact .pure List.suffix_rfl

theorem holds_arguments (ts : Tokens) :
    (Body.arguments ts).Holds (·.Below (.arguments ts)) fun v => v.2 <:+ ts := by
  unfold Body.arguments
  split
  · exact .pure List.suffix_rfl
  · refine .askFirst rfl (Nat.lt_succ_self 6) (fun _ h => h) fun _ p₁ => ?_
    refine .askPast p₁ fun _ p₂ => ?_
    exact .pure p₂.1

theorem holds_moreArguments (ts : Tokens) :
    (Body.moreArguments ts).Holds (·.Below (.moreArguments ts)) fun v => v.2 <:+ ts := by
  unfold Body.moreArguments
  split
  · refine .askPast (past_tail rfl) fun _ p₁ => ?_
    refine .askPast p₁ fun _ p₂ => ?_
    exact .pure p₂.1
  · exact .pure List.suffix_rfl

theorem holds_atom (ts : Tokens) :
    (Body.atom ts).Holds (·.Below (.atom ts)) fun v => Call.Past (.atom ts) v.2 := by
  unfold Body.atom
  split
  iterate 5 exact .pure (past_tail rfl)
  · refine .askPast (past_tail rfl) fun _ p₁ => ?_
    refine .readPast p₁ (eats_expect _ _) fun _ p₂ => ?_
    exact .pure p₂
  · refine .readPast ((past_tail rfl).suffix (List.suffix_cons _ _)) (eats_expect _ _) fun _ p₁ => ?_
    refine .askPast p₁ fun _ p₂ => ?_
    refine .readPast p₂ (eats_expect _ _) fun _ p₃ => ?_
    exact .pure p₃
  · refine .readPast (past_tail rfl) (eats_identifier _) fun _ p₁ => ?_
    refine .readPast p₁ (eats_expect _ _) fun _ p₂ => ?_
    refine .readPast p₂ (eats_expect _ _) fun _ p₃ => ?_
    exact .pure p₃
  · exact .refuse

theorem holds_parenthesized (ts : Tokens) :
    (Body.parenthesized ts).Holds (·.Below (.parenthesized ts)) fun v => Call.Past (.parenthesized ts) v.2 := by
  unfold Body.parenthesized
  refine .readFirst (eats_expect _ _) fun _ p₁ => ?_
  refine .askPast p₁ fun _ p₂ => ?_
  refine .readPast p₂ (eats_expect _ _) fun _ p₃ => ?_
  exact .pure p₃

theorem holds_assignment (target : Variable) (ts : Tokens) :
    (Body.assignment target ts).Holds (·.Below (.assignment target ts)) fun v => Call.Past (.assignment target ts) v.2 := by
  unfold Body.assignment
  split
  · refine .askPast (past_tail rfl) fun _ p₁ => ?_
    refine .readPast p₁ (eats_expect _ _) fun _ p₂ => ?_
    refine .readPast p₂ (eats_expect _ _) fun _ p₃ => ?_
    refine .askPast p₃ fun _ p₄ => ?_
    refine .readPast p₄ (eats_expect _ _) fun _ p₅ => ?_
    exact .pure p₅
  · refine .readFirst (eats_expect _ _) fun _ p₁ => ?_
    refine .askPast p₁ fun _ p₂ => ?_
    refine .readPast p₂ (eats_expect _ _) fun _ p₃ => ?_
    exact .pure p₃

theorem holds_statement (ts : Tokens) :
    (Body.statement ts).Holds (·.Below (.statement ts)) fun v => Call.Past (.statement ts) v.2 := by
  unfold Body.statement
  split
  · refine .askPast (past_tail rfl) fun _ p₁ => ?_
    refine .readPast p₁ (eats_expect _ _) fun _ p₂ => ?_
    exact .pure p₂
  · refine .askPast (past_tail rfl) fun _ p₁ => ?_
    refine .askPast p₁ fun _ p₂ => ?_
    refine .readPast p₂ (eats_expect _ _) fun _ p₃ => ?_
    refine .askPast p₃ fun _ p₄ => ?_
    exact .pure p₄
  · refine .askPast (past_tail rfl) fun _ p₁ => ?_
    refine .askPast p₁ fun _ p₂ => ?_
    exact .pure p₂
  · refine .askPast (past_tail rfl) fun _ p₁ => ?_
    refine .readPast p₁ (eats_expect _ _) fun _ p₂ => ?_
    exact .pure p₂
  · exact .lastPast (past_tail rfl) fun _ p₁ => p₁
  · exact .refuse

theorem holds_statements (stop : Token) (ts : Tokens) :
    (Body.statements stop ts).Holds (·.Below (.statements stop ts)) fun v => v.2 <:+ ts := by
  unfold Body.statements
  cases ts with
  | nil => exact .pure List.suffix_rfl
  | cons t ts =>
    dsimp only
    split
    · exact .pure List.suffix_rfl
    · refine .askFirst rfl Nat.one_pos (fun _ h => h) fun _ p₁ => ?_
      refine .askPast p₁ fun _ p₂ => ?_
      exact .pure p₂.1

theorem holds_method (ts : Tokens) :
    (Body.method ts).Holds (·.Below (.method ts)) fun v => Call.Past (.method ts) v.2 := by
  unfold Body.method
  refine .readFirst (eats_expect _ _) fun _ p₁ => ?_
  refine .readPast p₁ (eats_type _) fun _ p₂ => ?_
  refine .readPast p₂ (eats_identifier _) fun _ p₃ => ?_
  refine .readPast p₃ (eats_expect _ _) fun _ p₄ => ?_
  refine .askPast p₄ fun _ p₅ => ?_
  refine .readPast p₅ (eats_expectAll _ _) fun _ p₆ => ?_
  refine .askPast p₆ fun _ p₇ => ?_
  refine .askPast p₇ fun _ p₈ => ?_
  refine .readPast p₈ (eats_expect _ _) fun _ p₉ => ?_
  refine .askPast p₉ fun _ p₁₀ => ?_
  refine .readPast p₁₀ (eats_expectAll _ _) fun _ p₁₁ => ?_
  exact .pure p₁₁

theorem holds_methods (ts : Tokens) :
    (Body.methods ts).Holds (·.Below (.methods ts)) fun v => v.2 <:+ ts := by
  unfold Body.methods
  split
  · refine .askFirst rfl Nat.one_pos (fun _ h => h) fun _ p₁ => ?_
    refine .askPast p₁ fun _ p₂ => ?_
    exact .pure p₂.1
  · exact .pure List.suffix_rfl

theorem holds_classDeclaration (ts : Tokens) :
    (Body.classDeclaration ts).Holds (·.Below (.classDeclaration ts)) fun v => Call.Past (.classDeclaration ts) v.2 := by
  unfold Body.classDeclaration
  split
  · refine .readPast (past_tail rfl) (eats_identifier _) fun _ p₁ => ?_
    refine .readPast p₁ (eats_parent _) fun _ p₂ => ?_
    refine .readPast p₂ (eats_expect _ _) fun _ p₃ => ?_
    refine .askPast p₃ fun _ p₄ => ?_
    refine .askPast p₄ fun _ p₅ => ?_
    refine .readPast p₅ (eats_expect _ _) fun _ p₆ => ?_
    exact .pure p₆
  · exact .refuse

theorem holds_classDeclarations (ts : Tokens) :
    (Body.classDeclarations ts).Holds (·.Below (.classDeclarations ts)) fun _ => [] <:+ ts := by
  unfold Body.classDeclarations
  cases ts with
  | nil => exact .pure List.nil_suffix
  | cons t ts =>
    refine .askFirst rfl Nat.one_pos (fun _ h => h) fun _ p₁ => ?_
    exact .askPast p₁ fun _ _ => .pure List.nil_suffix

theorem holds_mainClass (ts : Tokens) :
    (Body.mainClass ts).Holds (·.Below (.mainClass ts)) fun v => Call.Past (.mainClass ts) v.2 := by
  unfold Body.mainClass
  refine .readFirst (eats_expect _ _) fun _ p₁ => ?_
  refine .readPast p₁ (eats_identifier _) fun _ p₂ => ?_
  refine .readPast p₂ (eats_expectAll _ _) fun _ p₃ => ?_
  refine .readPast p₃ (eats_identifier _) fun _ p₄ => ?_
  refine .readPast p₄ (eats_expectAll _ _) fun _ p₅ => ?_
  refine .askPast p₅ fun _ p₆ => ?_
  refine .readPast p₆ (eats_expectAll _ _) fun _ p₇ => ?_
  exact .pure p₇

theorem holds_program (ts : Tokens) :
    (Body.program ts).Holds (·.Below (.program ts)) fun _ => [] <:+ ts := by
  unfold Body.program
  refine .askFirst rfl Nat.one_pos (fun _ h => h) fun _ p₁ => ?_
  exact .askPast p₁ fun _ _ => .pure List.nil_suffix

end Body

/-- **Every rule calls only what is below it**, where the rules that it calls leave what they should, and then does so too. -/
theorem Call.holds_body (c : Call) : c.body.Holds (·.Below c) fun v => c.Leaves (c.rest v) := by
  cases c with
  | variableDeclarations ts => exact Body.holds_variableDeclarations ts
  | moreDeclarations ts => exact Body.holds_moreDeclarations ts
  | formals ts => exact Body.holds_formals ts
  | operation l ts => exact Body.holds_operation l ts
  | operands l left ts => exact Body.holds_operands l left ts
  | negation ts => exact Body.holds_negation ts
  | suffixes e ts => exact Body.holds_suffixes e ts
  | arguments ts => exact Body.holds_arguments ts
  | moreArguments ts => exact Body.holds_moreArguments ts
  | atom ts => exact Body.holds_atom ts
  | parenthesized ts => exact Body.holds_parenthesized ts
  | assignment target ts => exact Body.holds_assignment target ts
  | statement ts => exact Body.holds_statement ts
  | statements stop ts => exact Body.holds_statements stop ts
  | method ts => exact Body.holds_method ts
  | methods ts => exact Body.holds_methods ts
  | classDeclaration ts => exact Body.holds_classDeclaration ts
  | classDeclarations ts => exact Body.holds_classDeclarations ts
  | mainClass ts => exact Body.holds_mainClass ts
  | program ts => exact Body.holds_program ts

/-! ## Runs -/

/-- A call that is made in a body, where the calls before it are answered. -/
inductive Body.Makes {α : Type} (answers : (c : Call) → Except Refusal c.Value) : Body α → Call → Prop
  | now {c : Call} {go : c.Value → Body α} : Makes answers (call c go) c
  | later {c d : Call} {go : c.Value → Body α} {v : c.Value} :
      answers c = .ok v → Makes answers (go v) d → Makes answers (call c go) d

namespace Body.Holds

variable {α : Type} {P : Call → Prop} {Q : α → Prop} {answers : (c : Call) → Except Refusal c.Value} {x : Body α}

theorem eval (h : x.Holds P Q) (hrest : ∀ d, P d → ∀ v, answers d = .ok v → d.Leaves (d.rest v)) {a : α}
    (ha : x.eval answers = .ok a) : Q a := by
  induction x with
  | done r => exact h a ha
  | call c go ih =>
    obtain ⟨v, hv, ha⟩ := bind_eq_ok.1 ha
    exact ih v (h.2 v (hrest c h.1 v hv)) ha

theorem makes (h : x.Holds P Q) (hrest : ∀ d, P d → ∀ v, answers d = .ok v → d.Leaves (d.rest v)) {d : Call}
    (hd : x.Makes answers d) : P d := by
  induction hd with
  | now => exact h.1
  | later hv _ ih => exact ih (h.2 _ (hrest _ h.1 _ hv))

end Body.Holds

namespace Call

/-- **A rule leaves the end of its tokens**, and has read some where it has to. -/
theorem leaves_rest (c : Call) (v : c.Value) (h : c.run = .ok v) : c.Leaves (c.rest v) := by
  rw [← eval_body] at h
  exact c.holds_body.eval (fun d hd => d.leaves_rest) h
termination_by c.height
decreasing_by exact hd.height_lt

/-- A call that another one makes. -/
def Calls (c d : Call) : Prop := c.body.Makes run d

theorem Calls.below {c d : Call} (h : c.Calls d) : d.Below c := c.holds_body.makes (fun d _ => d.leaves_rest) h

theorem below_of_transGen {c d : Call} (h : Relation.TransGen Calls c d) : d.Below c := by
  induction h with
  | single h => exact h.below
  | tail _ h ih => exact h.below.trans ih

/-- **No rule comes back to itself before a token has been read.** -/
theorem past_of_transGen {c d : Call} (h : Relation.TransGen Calls c d) (hrule : d.rule = c.rule) : c.Past d.tokens :=
  (below_of_transGen h).past_of_rule_eq hrule

end Call

/-! ## Runs of a bounded depth -/

/-- What a rule comes to, where not every call need be answered. -/
def Body.within {α : Type} (answers : (c : Call) → Option (Except Refusal c.Value)) : Body α → Option (Except Refusal α)
  | done r => some r
  | call c go =>
    match answers c with
    | none => none
    | some (.error e) => some (.error e)
    | some (.ok v) => (go v).within answers

/-- What a call comes to, where at most `n` calls lie within one another. -/
def Call.within : Nat → (c : Call) → Option (Except Refusal c.Value)
  | 0, _ => none
  | n + 1, c => c.body.within (within n)

theorem Body.within_call_eq_none {α : Type} {c : Call} {go : c.Value → Body α}
    {answers : (c : Call) → Option (Except Refusal c.Value)} (h : answers c = none) : (call c go).within answers = none := by
  rw [within, h]

theorem Body.within_eq {α : Type} {x : Body α} {answers : (c : Call) → Option (Except Refusal c.Value)}
    (h : ∀ d, x.Makes Call.run d → answers d = some d.run) : x.within answers = some (x.eval Call.run) := by
  induction x with
  | done r => rfl
  | call c go ih =>
    rw [within, eval, h c .now]
    cases hc : c.run with
    | error e => rfl
    | ok v => exact ih v fun d hd => h d (.later hc hd)

namespace Call

/-- **As deep as a call is high is deep enough.** -/
theorem within_eq {n : Nat} {c : Call} (h : c.height < n) : c.within n = some c.run := by
  induction n generalizing c with
  | zero => exact absurd h (Nat.not_lt_zero _)
  | succ n ih =>
    rw [within, Body.within_eq fun d (hd : c.Calls d) => ih ?_, eval_body]
    exact Nat.lt_of_lt_of_le hd.below.height_lt (Nat.le_of_lt_succ h)

/-- **The depth is needed**: of so many negations in a row, each is read in a call within that of the one before. -/
theorem within_negations (s : Span) (ts : Tokens) (n : Nat) :
    (negation (List.replicate n ⟨.not, s⟩ ++ ts)).within n = none := by
  induction n with
  | zero => rfl
  | succ n ih => exact Body.within_call_eq_none ih

end Call

end Parse

end MiniJava
