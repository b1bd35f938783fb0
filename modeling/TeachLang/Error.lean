import TeachLang.Form
import TeachLang.Span

/-!
# What can go wrong

Each error states its cause; its wording is in the one function `message` of its type.
-/

namespace TeachLang

inductive SyntaxCause where
  | unknownCharacter (c : Char)
  | invalidNumber (digits : String)
  | unexpected (expected found : String)
  deriving DecidableEq

structure SyntaxError where
  cause : SyntaxCause
  span : Span
  deriving DecidableEq

inductive BuildError where
  | slotAlreadySet (kind : Kind) (slot : Slot)
  | noSuchSlot (kind : Kind) (slot : Slot)
  | alreadyAttached (kind : Kind)
  | cyclicAttachment (kind : Kind)
  | foreignNode (id : NodeId)
  deriving DecidableEq

inductive Fault where
  | undefinedVariable (name : String)
  | missingOperand (kind : Kind)
  | divisionByZero
  | invalidAssignTarget (found : Option Kind)
  | duplicateDeclaration (name : String)
  | missingCondition (kind : Kind)
  | invalidCondition (kind : Kind)
  | missingThenBranch
  | missingBody (kind : Kind)
  | invalidBody (kind : Kind)
  | invalidInputTarget (found : Option Kind)
  | inputFormat
  | missingExpression (kind : Kind)
  | invalidExpression (kind : Kind)
  | leavingGlobalScope
  deriving DecidableEq

structure RuntimeError where
  fault : Fault
  span : Option Span
  deriving DecidableEq

inductive Error where
  | unreadable (path cause : String)
  | io (text : String)
  | malformed (error : SyntaxError)
  | construction (error : BuildError)
  | runtime (error : RuntimeError)
  deriving DecidableEq

namespace SyntaxCause

def message : SyntaxCause → String
  | unknownCharacter c => "Unknown character '" ++ c.toString ++ "'"
  | invalidNumber digits => "Invalid number '" ++ digits ++ "'"
  | unexpected expected found => "Expected " ++ expected ++ ", found " ++ found

end SyntaxCause

namespace SyntaxError

def message (e : SyntaxError) : String := diagnostic (some e.span) e.cause.message

end SyntaxError

namespace BuildError

def message : BuildError → String
  | slotAlreadySet kind slot => slot.text ++ " of " ++ kind.text ++ " is already set"
  | noSuchSlot kind slot => kind.text ++ " has no " ++ slot.text
  | alreadyAttached kind => kind.text ++ " already has a place in the tree"
  | cyclicAttachment kind => "attaching " ++ kind.text ++ " would create a cycle"
  | foreignNode id => "node " ++ id.text ++ " does not belong to this tree"

end BuildError

namespace Fault

def badTarget (what : String) (found : Option Kind) : String :=
  "Invalid " ++ what ++ " target: expected variable reference, found "
    ++ (found.map Kind.text).getD "nothing"

def message : Fault → String
  | undefinedVariable name => "Undefined variable: " ++ name
  | missingOperand kind => "Missing operand in " ++ kind.text
  | divisionByZero => "Division by zero"
  | invalidAssignTarget found => badTarget "assignment" found
  | duplicateDeclaration name => "Variable " ++ name ++ " already declared"
  | missingCondition kind => "Missing condition in " ++ kind.text
  | invalidCondition kind => "Invalid condition: " ++ kind.text ++ " does not produce a value"
  | missingThenBranch => "Missing then branch in if statement"
  | missingBody kind => "Missing body in " ++ kind.text
  | invalidBody kind => "Invalid loop body: expected scope, found " ++ kind.text
  | invalidInputTarget found => badTarget "input" found
  | inputFormat => "Input error: expected integer"
  | missingExpression kind => "Missing expression in " ++ kind.text
  | invalidExpression kind => "Invalid expression: " ++ kind.text ++ " does not produce a value"
  | leavingGlobalScope => "Trying to leave from global scope"

end Fault

namespace RuntimeError

def located (fault : Fault) (span : Span) : RuntimeError :=
  ⟨fault, if span.known then some span else none⟩

def message (e : RuntimeError) : String := diagnostic e.span e.fault.message

end RuntimeError

namespace Error

def message : Error → String
  | unreadable path cause => "error: failed to read " ++ path ++ ": " ++ cause
  | io text => "error: " ++ text
  | malformed e => e.message
  | construction e => "error: " ++ e.message
  | runtime e => e.message

end Error

end TeachLang
