import TeachLang.Operator
import TeachLang.Span

/-!
# Programs

The shapes that a token list can have. Bodies of loops are statement lists by type, and assignments,
inputs and expressions are the simple statements, which alone may open a loop or step it. Every part
knows its span, but for the parentheses around an expression, which leave no trace.
-/

namespace TeachLang

inductive BinaryOperator where
  | arithmetic (op : ArithmeticOperator)
  | logic (op : LogicOperator)
  deriving DecidableEq

/-- Operators of a lower level bind tighter; those of one level group from the left. -/
def BinaryOperator.level : BinaryOperator → Nat
  | arithmetic .mul | arithmetic .div | arithmetic .mod => 1
  | arithmetic .add | arithmetic .sub => 2
  | logic .less | logic .greater | logic .lessEqual | logic .greaterEqual => 3
  | logic .equal | logic .notEqual => 4
  | logic .xor => 5
  | logic .and => 6
  | logic .or => 7

inductive Expr where
  | literal (span : Span) (value : Int64)
  | reference (span : Span) (name : String)
  | unary (span : Span) (op : UnaryOperator) (operand : Expr)
  | binary (span : Span) (op : BinaryOperator) (left right : Expr)

inductive Simple where
  | assign (span nameSpan : Span) (name : String) (value : Expr)
  | input (span nameSpan : Span) (name : String)
  | expr (value : Expr)

inductive Stmt where
  | block (span : Span) (body : List Stmt)
  | ifThen (span : Span) (condition : Expr) (thenBranch : Stmt)
  | ifElse (span : Span) (condition : Expr) (thenBranch elseBranch : Stmt)
  | whileLoop (span : Span) (condition : Expr) (bodySpan : Span) (body : List Stmt)
  | forLoop (span : Span) (init : Option Simple) (condition : Expr) (step : Option Simple)
      (bodySpan : Span) (body : List Stmt)
  | print (span : Span) (value : Expr)
  | declare (span : Span) (name : String) (initializer : Option Expr)
  | simple (span : Span) (statement : Simple)

namespace Stmt

def span : Stmt → Span
  | block s _ | ifThen s _ _ | ifElse s _ _ _ | whileLoop s _ _ _ | forLoop s _ _ _ _ _
  | print s _ | declare s _ _ | simple s _ => s

def asBody : Stmt → Span × List Stmt
  | block s body => (s, body)
  | s => (s.span, [s])

end Stmt

structure Program where
  span : Span
  statements : List Stmt

end TeachLang
