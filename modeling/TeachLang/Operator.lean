/-!
# Operators and their values

All arithmetic is that of 64-bit words in two's complement: results wrap around, division
truncates toward zero. Truth values are the words 0 and 1, and every word but 0 counts as true.
-/

namespace TeachLang

inductive ArithmeticOperator where
  | add | sub | mul | div | mod
  deriving DecidableEq

inductive LogicOperator where
  | greater | less | greaterEqual | lessEqual | equal | notEqual | and | or | xor
  deriving DecidableEq

inductive UnaryOperator where
  | negate | identity | not
  deriving DecidableEq

def truth (b : Bool) : Int64 := if b then 1 else 0

namespace ArithmeticOperator

def symbol : ArithmeticOperator → String
  | add => "+"
  | sub => "-"
  | mul => "*"
  | div => "/"
  | mod => "%"

def apply : ArithmeticOperator → Int64 → Int64 → Option Int64
  | add, a, b => some (a + b)
  | sub, a, b => some (a - b)
  | mul, a, b => some (a * b)
  | div, a, b => if b = 0 then none else some (a / b)
  | mod, a, b => if b = 0 then none else some (a % b)

end ArithmeticOperator

namespace LogicOperator

def symbol : LogicOperator → String
  | greater => ">"
  | less => "<"
  | greaterEqual => ">="
  | lessEqual => "<="
  | equal => "=="
  | notEqual => "!="
  | and => "&&"
  | or => "||"
  | xor => "^"

def settledBy : LogicOperator → Int64 → Option Int64
  | and, a => if a = 0 then some 0 else none
  | or, a => if a = 0 then none else some 1
  | _, _ => none

def apply : LogicOperator → Int64 → Int64 → Int64
  | greater, a, b => truth (a > b)
  | less, a, b => truth (a < b)
  | greaterEqual, a, b => truth (a ≥ b)
  | lessEqual, a, b => truth (a ≤ b)
  | equal, a, b => truth (a = b)
  | notEqual, a, b => truth (a ≠ b)
  | and, a, b => truth (a ≠ 0 ∧ b ≠ 0)
  | or, a, b => truth (a ≠ 0 ∨ b ≠ 0)
  | xor, a, b => a ^^^ b

end LogicOperator

namespace UnaryOperator

def symbol : UnaryOperator → String
  | negate => "-"
  | identity => "+"
  | not => "!"

def apply : UnaryOperator → Int64 → Int64
  | negate, a => -a
  | identity, a => a
  | not, a => truth (a = 0)

end UnaryOperator

end TeachLang
