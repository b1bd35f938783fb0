import TeachLang.Program
import TeachLang.Token.Lexer

/-!
# From tokens to programs

    program    = { statement } ;
    statement  = "{" { statement } "}"
               | "if" "(" expression ")" statement [ "else" statement ]
               | "while" "(" expression ")" statement
               | "for" "(" [ simple ] ";" expression ";" [ simple ] ")" statement
               | "print" expression ";"
               | "var" ident [ "=" expression ] ";"
               | simple ";" ;
    simple     = ident "=" "?" | ident "=" expression | expression ;
    expression = unary { operator unary } ;
    unary      = ( "-" | "+" | "!" ) unary | primary ;
    primary    = number | ident | "(" expression ")" ;

An `else` belongs to the nearest `if`, and the binary operators group by `BinaryOperator.level`.

The number that bounds a recursion below is never less than the number of tokens left. So where it
is used up the list has ended, and the answer given there is the answer for the end of the input.
-/

namespace TeachLang

structure Cursor where
  rest : List Located
  previous : Span

namespace Cursor

def token (c : Cursor) : Token :=
  match c.rest with
  | t :: _ => t.token
  | [] => .endOfInput

/-- The span of the token to be read next; the end of the input lies where the last token does. -/
def span (c : Cursor) : Span :=
  match c.rest with
  | t :: _ => t.span
  | [] => c.previous

def advance (c : Cursor) : Cursor := ⟨c.rest.tail, c.span⟩

end Cursor

inductive Expected where
  | token (t : Token)
  | identifier
  | expression
  | loopCondition

def Expected.text : Expected → String
  | token t => t.text
  | identifier => "identifier"
  | expression => "expression"
  | loopCondition => "loop condition"

abbrev Parser := StateT Cursor (Except SyntaxError)

namespace Token

def unary? : Token → Option UnaryOperator
  | minus => some .negate
  | plus => some .identity
  | not => some .not
  | _ => none

def binary? : Token → Option BinaryOperator
  | times => some (.arithmetic .mul)
  | divide => some (.arithmetic .div)
  | modulo => some (.arithmetic .mod)
  | plus => some (.arithmetic .add)
  | minus => some (.arithmetic .sub)
  | less => some (.logic .less)
  | greater => some (.logic .greater)
  | lessEqual => some (.logic .lessEqual)
  | greaterEqual => some (.logic .greaterEqual)
  | equal => some (.logic .equal)
  | notEqual => some (.logic .notEqual)
  | xor => some (.logic .xor)
  | and => some (.logic .and)
  | or => some (.logic .or)
  | _ => none

def operator? (level : Nat) (t : Token) : Option BinaryOperator :=
  t.binary?.filter fun op => op.level = level

end Token

namespace Parser

def token : Parser Token := return (← get).token

def here : Parser Span := return (← get).span

def advance : Parser Unit := modify Cursor.advance

def spanFrom (start : Span) : Parser Span := return start.through (← get).previous

def unexpected {α : Type} (e : Expected) : Parser α := do
  throw ⟨.unexpected e.text (← token).text, ← here⟩

def expect (t : Token) : Parser Unit := do
  if (← token) = t then advance else unexpected (.token t)

def identifier : Parser String := do
  match ← token with
  | .ident name => advance; return name
  | _ => unexpected .identifier

def parenthesized (inner : Parser Expr) : Parser Expr := do
  expect .leftParen
  let e ← inner
  expect .rightParen
  return e

/-- `inner` reads what stands between parentheses. -/
def primary (inner : Parser Expr) : Parser Expr := do
  let start ← here
  match ← token with
  | .number value =>
    advance
    return .literal (← spanFrom start) value
  | .ident name =>
    advance
    return .reference (← spanFrom start) name
  | .leftParen => parenthesized inner
  | _ => unexpected .expression

def unary (inner : Parser Expr) : Nat → Parser Expr
  | 0 => unexpected .expression
  | bound + 1 => do
    let start ← here
    match (← token).unary? with
    | none => primary inner
    | some op =>
      advance
      let operand ← unary inner bound
      return .unary (← spanFrom start) op operand

def chain (operand : Parser Expr) (level : Nat) (start : Span) : Nat → Expr → Parser Expr
  | 0, left => return left
  | bound + 1, left => do
    match (← token).operator? level with
    | none => return left
    | some op =>
      advance
      let right ← operand
      chain operand level start bound (.binary (← spanFrom start) op left right)

/-- Expressions whose operators outside of parentheses have at most the given level. -/
def upTo (bound : Nat) (inner : Parser Expr) : Nat → Parser Expr
  | 0 => unary inner bound
  | level + 1 => do
    let start ← here
    let left ← upTo bound inner level
    chain (upTo bound inner level) (level + 1) start bound left

def expression : Nat → Parser Expr
  | 0 => unexpected .expression
  | bound + 1 => upTo (bound + 1) (expression bound) 7

def atAssignment (c : Cursor) : Bool :=
  match c.rest with
  | ⟨.ident _, _⟩ :: ⟨.assign, _⟩ :: _ => true
  | _ => false

def simple (bound : Nat) : Parser Simple := do
  if atAssignment (← get) then
    let start ← here
    let name ← identifier
    let nameSpan ← spanFrom start
    expect .assign
    if (← token) = .question then
      advance
      return .input (← spanFrom start) nameSpan name
    else
      let value ← expression bound
      return .assign (← spanFrom start) nameSpan name value
  else
    return .expr (← expression bound)

def simpleUnless (close : Token) (bound : Nat) : Parser (Option Simple) := do
  if (← token) = close then return none else return some (← simple bound)

def many {α : Type} (item : Parser α) (stop : List Token) : Nat → Parser (List α)
  | 0 => return []
  | bound + 1 => do
    if (← token) ∈ stop then return []
    else
      let first ← item
      return first :: (← many item stop bound)

def printStatement (bound : Nat) : Parser Stmt := do
  let start ← here
  expect .printWord
  let value ← expression bound
  expect .semicolon
  return .print (← spanFrom start) value

def declaration (bound : Nat) : Parser Stmt := do
  let start ← here
  expect .varWord
  let name ← identifier
  let initializer ←
    if (← token) = .assign then
      advance
      some <$> expression bound
    else pure none
  expect .semicolon
  return .declare (← spanFrom start) name initializer

def simpleStatement (bound : Nat) : Parser Stmt := do
  let start ← here
  let s ← simple bound
  expect .semicolon
  return .simple (← spanFrom start) s

def block (inner : Parser Stmt) (bound : Nat) : Parser Stmt := do
  let start ← here
  expect .leftBrace
  let body ← many inner [.rightBrace, .endOfInput] bound
  expect .rightBrace
  return .block (← spanFrom start) body

def conditional (inner : Parser Stmt) (bound : Nat) : Parser Stmt := do
  let start ← here
  expect .ifWord
  let condition ← parenthesized (expression bound)
  let thenBranch ← inner
  if (← token) = .elseWord then
    advance
    let elseBranch ← inner
    return .ifElse (← spanFrom start) condition thenBranch elseBranch
  else
    return .ifThen (← spanFrom start) condition thenBranch

def whileLoop (inner : Parser Stmt) (bound : Nat) : Parser Stmt := do
  let start ← here
  expect .whileWord
  let condition ← parenthesized (expression bound)
  let (bodySpan, body) := (← inner).asBody
  return .whileLoop (← spanFrom start) condition bodySpan body

def forLoop (inner : Parser Stmt) (bound : Nat) : Parser Stmt := do
  let start ← here
  expect .forWord
  expect .leftParen
  let init ← simpleUnless .semicolon bound
  expect .semicolon
  if (← token) = .semicolon then unexpected .loopCondition
  let condition ← expression bound
  expect .semicolon
  let step ← simpleUnless .rightParen bound
  expect .rightParen
  let (bodySpan, body) := (← inner).asBody
  return .forLoop (← spanFrom start) init condition step bodySpan body

def statement : Nat → Parser Stmt
  | 0 => unexpected .expression
  | bound + 1 => do
    match ← token with
    | .leftBrace => block (statement bound) bound
    | .ifWord => conditional (statement bound) bound
    | .whileWord => whileLoop (statement bound) bound
    | .forWord => forLoop (statement bound) bound
    | .printWord => printStatement bound
    | .varWord => declaration bound
    | _ => simpleStatement (bound + 1)

/-- What stands behind a token for the end of the input is not read. -/
def program (bound : Nat) : Parser Program := do
  let start ← here
  let statements ← many (statement bound) [.endOfInput] bound
  return ⟨← spanFrom start, statements⟩

variable {α β : Type} (c : Cursor)

theorem run_bind (x : Parser α) (f : α → Parser β) :
    (x >>= f).run c =
      match x.run c with
      | .ok (a, d) => (f a).run d
      | .error e => .error e := by
  rcases h : x.run c with _ | ⟨_, _⟩ <;> simp [h] <;> rfl

@[simp] theorem run_token : token.run c = .ok (c.token, c) := rfl

@[simp] theorem run_here : here.run c = .ok (c.span, c) := rfl

@[simp] theorem run_advance : advance.run c = .ok ((), c.advance) := rfl

@[simp] theorem run_spanFrom (start : Span) :
    (spanFrom start).run c = .ok (start.through c.previous, c) := rfl

@[simp] theorem run_unexpected (e : Expected) :
    (unexpected e : Parser α).run c =
      .error ⟨.unexpected e.text c.token.text, c.span⟩ := rfl

theorem run_expect (t : Token) :
    (expect t).run c =
      if c.token = t then .ok ((), c.advance)
      else .error ⟨.unexpected t.text c.token.text, c.span⟩ := by
  simp only [expect, run_bind, run_token]
  split <;> rfl

end Parser

def parse (tokens : List Located) : Except SyntaxError Program := do
  let (p, _) ← (Parser.program tokens.length).run ⟨tokens, {}⟩
  return p

end TeachLang
