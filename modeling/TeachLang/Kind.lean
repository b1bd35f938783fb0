/-!
# Kinds of nodes and the roles of their children
-/

namespace TeachLang

inductive Kind where
  | arithmetic | logic | unary | scope | literal | print | assign | reference | declaration
  | expression | ifElse | whileLoop | forLoop | input
  deriving DecidableEq

namespace Kind

/-- The short name that labels a node in a graph. -/
def name : Kind → String
  | arithmetic => "bin_arith_op"
  | logic => "bin_logic_op"
  | unary => "unop"
  | scope => "scope"
  | literal => "value"
  | print => "print"
  | assign => "assign"
  | reference => "var"
  | declaration => "var_decl"
  | expression => "expr"
  | ifElse => "if"
  | whileLoop => "while"
  | forLoop => "for"
  | input => "input"

/-- The words that name the kind in messages. -/
def text : Kind → String
  | arithmetic => "arithmetic operation"
  | logic => "logic operation"
  | unary => "unary operation"
  | scope => "scope"
  | literal => "literal"
  | print => "print statement"
  | assign => "assignment"
  | reference => "variable reference"
  | declaration => "variable declaration"
  | expression => "expression statement"
  | ifElse => "if statement"
  | whileLoop => "while loop"
  | forLoop => "for loop"
  | input => "input statement"

def evaluable : Kind → Bool
  | arithmetic | logic | unary | literal | reference | expression => true
  | _ => false

end Kind

/-- The roles of children. A `statement` is one of the statements of a scope; every other role is
filled at most once. -/
inductive Slot where
  | operand | left | right | assignTarget | assignedValue | initializer | expr | inputTarget
  | condition | thenBranch | elseBranch | body | init | step | statement
  deriving DecidableEq

namespace Slot

def text : Slot → String
  | operand => "operand"
  | left => "left operand"
  | right => "right operand"
  | assignTarget => "assignment target"
  | assignedValue => "assigned value"
  | initializer => "initializer"
  | expr => "expression"
  | inputTarget => "input target"
  | condition => "condition"
  | thenBranch => "then branch"
  | elseBranch => "else branch"
  | body => "body"
  | init => "init statement"
  | step => "step statement"
  | statement => "statement"

end Slot

end TeachLang
