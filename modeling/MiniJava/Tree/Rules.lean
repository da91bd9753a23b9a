import MiniJava.Tree.Basic
/-!
# The grammar's rules

Each rule reads its construct from the front of a token list and answers what follows it, which is always shorter, or
refuses at a token.  The next token decides what to read; only a variable declaration is tried and taken back, since
a class name also begins an assignment.  The first refusal ends the parse.
-/
namespace MiniJava

inductive SyntaxError where
  | unexpectedToken (expected found : Token)
  | missingToken (expected : Token)
  | expectedIdentifier | expectedStatement | expectedType | expectedExpression | expectedClass
  | unexpectedEnd
  deriving DecidableEq, Repr

def SyntaxError.message : SyntaxError → String
  | unexpectedToken t u => "Expected token " ++ t.describe ++ ", found " ++ u.describe ++ " instead"
  | missingToken t => "Expected token " ++ t.describe ++ ", none was found instead"
  | expectedIdentifier => "Expected identifier"
  | expectedStatement => "Expected any of `\x7b`, `if`, `while`, `System.out.println` or assignment"
  | expectedType => "Expected any of `int`, `int[]`, `boolean` or a class name"
  | expectedExpression => "Expected an expression"
  | expectedClass => "Expected a class declaration"
  | unexpectedEnd => "Abrupt end of program"

abbrev Tokens := List (Located Token)

/-- Why a rule stopped, and the tokens that it had not read: the first of them is at fault, or their end is. -/
structure Refusal where
  cause : SyntaxError
  rest : Tokens
  deriving Repr

/-- What was read, and the tokens after it: fewer than `bound`. -/
structure Parsed (α : Type) (bound : Nat) where
  val : α
  rest : Tokens
  lt : rest.length < bound

/-- A rule that reads at least one token. -/
abbrev Rule (α : Type) := (ts : Tokens) → Except Refusal (Parsed α ts.length)

/-- A rule that may read nothing. -/
abbrev LooseRule (α : Type) := (ts : Tokens) → Except Refusal (Parsed α (ts.length + 1))

namespace Parse

/-- Refuses at the first of `ts`. -/
def refuse {α : Type} (cause : SyntaxError) : (ts : Tokens) → Except Refusal α
  | [] => .error ⟨.unexpectedEnd, []⟩
  | ts => .error ⟨cause, ts⟩

/-! ## Single tokens -/

def expect (t : Token) : Rule Span
  | [] => .error ⟨.missingToken t, []⟩
  | u :: ts =>
    if u.val = t then .ok ⟨u.span, ts, by simp⟩ else .error ⟨.unexpectedToken t u.val, u :: ts⟩

/-- Reads the tokens of `expected` one after another. -/
def expectAll : (expected : List Token) → LooseRule Unit
  | [], ts => .ok ⟨(), ts, by omega⟩
  | t :: expected, ts => do
    let ⟨_, ts₁, h₁⟩ ← expect t ts
    let ⟨_, ts₂, h₂⟩ ← expectAll expected ts₁
    return ⟨(), ts₂, by omega⟩

def identifier : Rule (Located Name)
  | ⟨.ident x, s⟩ :: ts => .ok ⟨⟨x, s⟩, ts, by simp⟩
  | ts => refuse .expectedIdentifier ts

/-! ## Declarations -/

def type : Rule (Located Ty)
  | ⟨.keyword .booleanKw, s⟩ :: ts => .ok ⟨⟨.boolean, s⟩, ts, by simp⟩
  | ⟨.keyword .intKw, s⟩ :: ⟨.openSquare, _⟩ :: ts => do
    let ⟨close, ts₁, h₁⟩ ← expect .closeSquare ts
    return ⟨⟨.intArray, s.join close⟩, ts₁, by simp only [List.length_cons]; omega⟩
  | ⟨.keyword .intKw, s⟩ :: ts => .ok ⟨⟨.int, s⟩, ts, by simp⟩
  | ⟨.ident c, s⟩ :: ts => .ok ⟨⟨.object c, s⟩, ts, by simp⟩
  | ts => refuse .expectedType ts

def declaration : Rule Declaration := fun ts => do
  let ⟨ty, ts₁, h₁⟩ ← type ts
  let ⟨name, ts₂, h₂⟩ ← identifier ts₁
  return ⟨⟨name, ty⟩, ts₂, by omega⟩

def variableDeclaration : Rule Declaration := fun ts => do
  let ⟨d, ts₁, h₁⟩ ← declaration ts
  let ⟨_, ts₂, h₂⟩ ← expect .semicolon ts₁
  return ⟨d, ts₂, by omega⟩

/-- As many variable declarations as there are. -/
def variableDeclarations (ts : Tokens) : Parsed (List Declaration) (ts.length + 1) :=
  match variableDeclaration ts with
  | .ok ⟨d, ts₁, h₁⟩ =>
    let ⟨ds, ts₂, h₂⟩ := variableDeclarations ts₁
    ⟨d :: ds, ts₂, by omega⟩
  | .error _ => ⟨[], ts, by omega⟩
termination_by ts.length

/-- The declarations after the first one of a list, each with a comma before it. -/
def moreDeclarations (ts : Tokens) : Except Refusal (Parsed (List Declaration) (ts.length + 1)) :=
  match ts with
  | ⟨.comma, _⟩ :: ts => do
    let ⟨d, ts₁, h₁⟩ ← declaration ts
    let ⟨ds, ts₂, h₂⟩ ← moreDeclarations ts₁
    return ⟨d :: ds, ts₂, by simp only [List.length_cons]; omega⟩
  | ts => .ok ⟨[], ts, by omega⟩
termination_by ts.length

/-- The formal parameters, up to the closing parenthesis. -/
def formals : LooseRule (List Declaration)
  | ⟨.closeParen, s⟩ :: ts => .ok ⟨[], ⟨.closeParen, s⟩ :: ts, by simp⟩
  | ts => do
    let ⟨d, ts₁, h₁⟩ ← declaration ts
    let ⟨ds, ts₂, h₂⟩ ← moreDeclarations ts₁
    return ⟨d :: ds, ts₂, by omega⟩

/-! ## Expressions

Operators bind the tighter the higher their level, and all of them group to the left.  Below the last level come
negation, then suffixes, then atoms. -/

def operator? : Token → Option Op
  | .and => some .and
  | .less => some .less
  | .plus => some .add
  | .minus => some .sub
  | .times => some .mul
  | _ => none

def level : Op → Nat
  | .and => 0
  | .less => 1
  | .add | .sub => 2
  | .mul => 3

def levels : Nat := 4

/-- An expression as the parser leaves it, without a type. -/
def unmarked (start stop : Span) : Mark := ⟨start.join stop, none⟩

mutual

/-- An expression whose outermost operators are of level `l` or tighter. -/
def operation (l : Nat) (ts : Tokens) : Except Refusal (Parsed Expr ts.length) :=
  if l < levels then do
    let ⟨left, ts₁, h₁⟩ ← operation (l + 1) ts
    let ⟨e, ts₂, h₂⟩ ← operands l left ts₁
    return ⟨e, ts₂, by omega⟩
  else negation ts
termination_by (ts.length, 3 + (levels - l))

/-- The further operands of operators of level `l`, taken onto `left`. -/
def operands (l : Nat) (left : Expr) (ts : Tokens) : Except Refusal (Parsed Expr (ts.length + 1)) :=
  match ts with
  | [] => .ok ⟨left, [], by simp⟩
  | t :: ts =>
    match operator? t.val with
    | some op =>
      if level op = l then do
        let ⟨right, ts₁, h₁⟩ ← operation (l + 1) ts
        let ⟨e, ts₂, h₂⟩ ← operands l (.binary (unmarked left.span right.span) left op right) ts₁
        return ⟨e, ts₂, by simp only [List.length_cons]; omega⟩
      else .ok ⟨left, t :: ts, by simp⟩
    | none => .ok ⟨left, t :: ts, by simp⟩
termination_by (ts.length, 0)

def negation (ts : Tokens) : Except Refusal (Parsed Expr ts.length) :=
  match ts with
  | ⟨.not, s⟩ :: ts => do
    let ⟨e, ts₁, h₁⟩ ← negation ts
    return ⟨.not (unmarked s e.span) e, ts₁, by simp only [List.length_cons]; omega⟩
  | ts => do
    let ⟨e, ts₁, h₁⟩ ← atom ts
    let ⟨e, ts₂, h₂⟩ ← suffixes e ts₁
    return ⟨e, ts₂, by omega⟩
termination_by (ts.length, 1)

/-- Indexing, lengths and calls, taken onto `e`. -/
def suffixes (e : Expr) (ts : Tokens) : Except Refusal (Parsed Expr (ts.length + 1)) :=
  match ts with
  | ⟨.openSquare, _⟩ :: ts => do
    let ⟨i, ts₁, h₁⟩ ← operation 0 ts
    let ⟨close, ts₂, h₂⟩ ← expect .closeSquare ts₁
    let ⟨e, ts₃, h₃⟩ ← suffixes (.index (unmarked e.span close) e i) ts₂
    return ⟨e, ts₃, by simp only [List.length_cons]; omega⟩
  | ⟨.period, _⟩ :: ⟨.keyword .lengthKw, s⟩ :: ts => do
    let ⟨e, ts₁, h₁⟩ ← suffixes (.length (unmarked e.span s) e) ts
    return ⟨e, ts₁, by simp only [List.length_cons]; omega⟩
  | ⟨.period, _⟩ :: ts => do
    let ⟨method, ts₁, h₁⟩ ← identifier ts
    let ⟨_, ts₂, h₂⟩ ← expect .openParen ts₁
    let ⟨args, ts₃, h₃⟩ ← arguments ts₂
    let ⟨close, ts₄, h₄⟩ ← expect .closeParen ts₃
    let ⟨e, ts₅, h₅⟩ ← suffixes (.call (unmarked e.span close) e method args none) ts₄
    return ⟨e, ts₅, by simp only [List.length_cons]; omega⟩
  | ts => .ok ⟨e, ts, by omega⟩
termination_by (ts.length, 0)

/-- The arguments of a call, up to the closing parenthesis. -/
def arguments (ts : Tokens) : Except Refusal (Parsed (List Expr) (ts.length + 1)) :=
  match ts with
  | ⟨.closeParen, s⟩ :: ts => .ok ⟨[], ⟨.closeParen, s⟩ :: ts, by simp⟩
  | ts => do
    let ⟨e, ts₁, h₁⟩ ← operation 0 ts
    let ⟨es, ts₂, h₂⟩ ← moreArguments ts₁
    return ⟨e :: es, ts₂, by omega⟩
termination_by (ts.length, 4 + levels)

def moreArguments (ts : Tokens) : Except Refusal (Parsed (List Expr) (ts.length + 1)) :=
  match ts with
  | ⟨.comma, _⟩ :: ts => do
    let ⟨e, ts₁, h₁⟩ ← operation 0 ts
    let ⟨es, ts₂, h₂⟩ ← moreArguments ts₁
    return ⟨e :: es, ts₂, by simp only [List.length_cons]; omega⟩
  | ts => .ok ⟨[], ts, by omega⟩
termination_by (ts.length, 0)

/-- Parentheses leave no trace: the expression between them keeps its own span. -/
def atom (ts : Tokens) : Except Refusal (Parsed Expr ts.length) :=
  match ts with
  | ⟨.literal n, s⟩ :: ts => .ok ⟨.literal (unmarked s s) n, ts, by simp⟩
  | ⟨.keyword .trueKw, s⟩ :: ts => .ok ⟨.bool (unmarked s s) true, ts, by simp⟩
  | ⟨.keyword .falseKw, s⟩ :: ts => .ok ⟨.bool (unmarked s s) false, ts, by simp⟩
  | ⟨.keyword .thisKw, s⟩ :: ts => .ok ⟨.self (unmarked s s), ts, by simp⟩
  | ⟨.ident x, s⟩ :: ts => .ok ⟨.read (unmarked s s) (.unmarked ⟨x, s⟩), ts, by simp⟩
  | ⟨.openParen, _⟩ :: ts => do
    let ⟨e, ts₁, h₁⟩ ← operation 0 ts
    let ⟨_, ts₂, h₂⟩ ← expect .closeParen ts₁
    return ⟨e, ts₂, by simp only [List.length_cons]; omega⟩
  | ⟨.keyword .newKw, s⟩ :: ⟨.keyword .intKw, _⟩ :: ts => do
    let ⟨_, ts₁, h₁⟩ ← expect .openSquare ts
    let ⟨n, ts₂, h₂⟩ ← operation 0 ts₁
    let ⟨close, ts₃, h₃⟩ ← expect .closeSquare ts₂
    return ⟨.newArray (unmarked s close) n, ts₃, by simp only [List.length_cons]; omega⟩
  | ⟨.keyword .newKw, s⟩ :: ts => do
    let ⟨c, ts₁, h₁⟩ ← identifier ts
    let ⟨_, ts₂, h₂⟩ ← expect .openParen ts₁
    let ⟨close, ts₃, h₃⟩ ← expect .closeParen ts₂
    return ⟨.newObject (unmarked s close) c, ts₃, by simp only [List.length_cons]; omega⟩
  | ts => refuse .expectedExpression ts
termination_by (ts.length, 0)

end

def expression : Rule Expr := operation 0

def parenthesized : Rule Expr := fun ts => do
  let ⟨_, ts₁, h₁⟩ ← expect .openParen ts
  let ⟨e, ts₂, h₂⟩ ← expression ts₁
  let ⟨_, ts₃, h₃⟩ ← expect .closeParen ts₂
  return ⟨e, ts₃, by omega⟩

/-! ## Statements -/

/-- What follows the target of an assignment. -/
def assignment (target : Variable) : Rule Stmt
  | ⟨.openSquare, _⟩ :: ts => do
    let ⟨i, ts₁, h₁⟩ ← expression ts
    let ⟨_, ts₂, h₂⟩ ← expect .closeSquare ts₁
    let ⟨_, ts₃, h₃⟩ ← expect .assign ts₂
    let ⟨e, ts₄, h₄⟩ ← expression ts₃
    let ⟨_, ts₅, h₅⟩ ← expect .semicolon ts₄
    return ⟨.store target i e, ts₅, by simp only [List.length_cons]; omega⟩
  | ts => do
    let ⟨_, ts₁, h₁⟩ ← expect .assign ts
    let ⟨e, ts₂, h₂⟩ ← expression ts₁
    let ⟨_, ts₃, h₃⟩ ← expect .semicolon ts₂
    return ⟨.assign target e, ts₃, by omega⟩

mutual

def statement (ts : Tokens) : Except Refusal (Parsed Stmt ts.length) :=
  match ts with
  | ⟨.openCurly, _⟩ :: ts => do
    let ⟨body, ts₁, h₁⟩ ← statements .closeCurly ts
    let ⟨_, ts₂, h₂⟩ ← expect .closeCurly ts₁
    return ⟨.block body, ts₂, by simp only [List.length_cons]; omega⟩
  | ⟨.keyword .ifKw, _⟩ :: ts => do
    let ⟨condition, ts₁, h₁⟩ ← parenthesized ts
    let ⟨yes, ts₂, h₂⟩ ← statement ts₁
    let ⟨_, ts₃, h₃⟩ ← expect (.keyword .elseKw) ts₂
    let ⟨no, ts₄, h₄⟩ ← statement ts₃
    return ⟨.ite condition yes no, ts₄, by simp only [List.length_cons]; omega⟩
  | ⟨.keyword .whileKw, _⟩ :: ts => do
    let ⟨condition, ts₁, h₁⟩ ← parenthesized ts
    let ⟨body, ts₂, h₂⟩ ← statement ts₁
    return ⟨.loop condition body, ts₂, by simp only [List.length_cons]; omega⟩
  | ⟨.keyword .printlnKw, _⟩ :: ts => do
    let ⟨e, ts₁, h₁⟩ ← parenthesized ts
    let ⟨_, ts₂, h₂⟩ ← expect .semicolon ts₁
    return ⟨.print e, ts₂, by simp only [List.length_cons]; omega⟩
  | ⟨.ident x, s⟩ :: ts => do
    let ⟨assigned, ts₁, h₁⟩ ← assignment (.unmarked ⟨x, s⟩) ts
    return ⟨assigned, ts₁, by simp only [List.length_cons]; omega⟩
  | ts => refuse .expectedStatement ts
termination_by (ts.length, 0)

/-- Statements up to the token `stop`, or to the end. -/
def statements (stop : Token) (ts : Tokens) : Except Refusal (Parsed (List Stmt) (ts.length + 1)) :=
  match ts with
  | [] => .ok ⟨[], [], by simp⟩
  | t :: ts =>
    if t.val = stop then .ok ⟨[], t :: ts, by simp⟩
    else do
      let ⟨s, ts₁, h₁⟩ ← statement (t :: ts)
      let ⟨ss, ts₂, h₂⟩ ← statements stop ts₁
      return ⟨s :: ss, ts₂, by omega⟩
termination_by (ts.length, 1)

end

/-! ## Classes -/

def method : Rule Method := fun ts => do
  let ⟨_, ts₁, h₁⟩ ← expect (.keyword .publicKw) ts
  let ⟨returns, ts₂, h₂⟩ ← type ts₁
  let ⟨name, ts₃, h₃⟩ ← identifier ts₂
  let ⟨_, ts₄, h₄⟩ ← expect .openParen ts₃
  let ⟨formals, ts₅, h₅⟩ ← formals ts₄
  let ⟨_, ts₆, h₆⟩ ← expectAll [.closeParen, .openCurly] ts₅
  let ⟨locals, ts₇, h₇⟩ := variableDeclarations ts₆
  let ⟨body, ts₈, h₈⟩ ← statements (.keyword .returnKw) ts₇
  let ⟨_, ts₉, h₉⟩ ← expect (.keyword .returnKw) ts₈
  let ⟨result, ts₁₀, h₁₀⟩ ← expression ts₉
  let ⟨_, ts₁₁, h₁₁⟩ ← expectAll [.semicolon, .closeCurly] ts₁₀
  return ⟨⟨name, returns, formals, locals, body, result⟩, ts₁₁, by omega⟩

/-- Methods for as long as the next token is `public`. -/
def methods (ts : Tokens) : Except Refusal (Parsed (List Method) (ts.length + 1)) :=
  match ts with
  | ⟨.keyword .publicKw, s⟩ :: ts => do
    let ⟨m, ts₁, h₁⟩ ← method (⟨.keyword .publicKw, s⟩ :: ts)
    let ⟨ms, ts₂, h₂⟩ ← methods ts₁
    return ⟨m :: ms, ts₂, by omega⟩
  | ts => .ok ⟨[], ts, by omega⟩
termination_by ts.length
decreasing_by assumption

def parent : LooseRule (Option (Located Name))
  | ⟨.keyword .extendsKw, _⟩ :: ts => do
    let ⟨name, ts₁, h₁⟩ ← identifier ts
    return ⟨some name, ts₁, by simp only [List.length_cons]; omega⟩
  | ts => .ok ⟨none, ts, by omega⟩

def classDeclaration : Rule ClassDecl
  | ⟨.keyword .classKw, _⟩ :: ts => do
    let ⟨name, ts₁, h₁⟩ ← identifier ts
    let ⟨parent, ts₂, h₂⟩ ← parent ts₁
    let ⟨_, ts₃, h₃⟩ ← expect .openCurly ts₂
    let ⟨fields, ts₄, h₄⟩ := variableDeclarations ts₃
    let ⟨methods, ts₅, h₅⟩ ← methods ts₄
    let ⟨_, ts₆, h₆⟩ ← expect .closeCurly ts₅
    return ⟨⟨name, parent, fields, methods⟩, ts₆, by simp only [List.length_cons]; omega⟩
  | ts => refuse .expectedClass ts

/-- Classes up to the end of the tokens. -/
def classDeclarations (ts : Tokens) : Except Refusal (List ClassDecl) :=
  match ts with
  | [] => .ok []
  | t :: ts => do
    let ⟨c, ts₁, _⟩ ← classDeclaration (t :: ts)
    return c :: (← classDeclarations ts₁)
termination_by ts.length
decreasing_by assumption

def mainClass : Rule MainClass := fun ts => do
  let ⟨_, ts₁, h₁⟩ ← expect (.keyword .classKw) ts
  let ⟨name, ts₂, h₂⟩ ← identifier ts₁
  let ⟨_, ts₃, h₃⟩ ← expectAll [.openCurly, .keyword .publicKw, .keyword .staticKw, .keyword .voidKw, .keyword .mainKw,
    .openParen, .keyword .stringKw, .openSquare, .closeSquare] ts₂
  let ⟨argument, ts₄, h₄⟩ ← identifier ts₃
  let ⟨_, ts₅, h₅⟩ ← expectAll [.closeParen, .openCurly] ts₄
  let ⟨body, ts₆, h₆⟩ ← statement ts₅
  let ⟨_, ts₇, h₇⟩ ← expectAll [.closeCurly, .closeCurly] ts₆
  return ⟨⟨name, argument, body⟩, ts₇, by omega⟩

def program (ts : Tokens) : Except Refusal Program := do
  let ⟨main, ts₁, _⟩ ← mainClass ts
  return ⟨main, ← classDeclarations ts₁⟩

end Parse

/-- Where a refusal is reported: at the token that it stopped at, or at the end of the text. -/
def Refusal.located (eof : Span) (r : Refusal) : Located SyntaxError := ⟨r.cause, (r.rest.head?.map (·.span)).getD eof⟩

/-- The program that the tokens of a text spell, `eof` being the end of the text. -/
def Program.parse (eof : Span) (ts : Tokens) : Except (Located SyntaxError) Program :=
  (Parse.program ts).mapError (·.located eof)

end MiniJava
