import TeachLang.Program.Parser
import TeachLang.Tree.Build

/-!
# The tree of a program

The parts of a program become nodes, children before parents and in the order of their roles, so a
node's position counts the nodes finished before it and the root comes last.
-/

namespace TeachLang

def Build.place (span : Span) (form : Form) : Build NodeId := do
  let id ← Build.add form
  Build.setSpan id span
  return id

def Build.scope (span : Span) (statements : Build (List NodeId)) : Build NodeId := do
  Build.place span (.scope (← statements))

def BinaryOperator.form (left right : NodeId) : BinaryOperator → Form
  | arithmetic op => .arithmetic op (some left) (some right)
  | logic op => .logic op (some left) (some right)

namespace Expr

def layout : Expr → Build NodeId
  | literal span value => Build.place span (.literal value)
  | reference span name => Build.place span (.reference name)
  | unary span op operand => do
    let operand ← operand.layout
    Build.place span (.unary op (some operand))
  | binary span op left right => do
    let left ← left.layout
    let right ← right.layout
    Build.place span (op.form left right)

end Expr

def Build.optional {α : Type} (layout : α → Build NodeId) : Option α → Build (Option NodeId)
  | some part => return some (← layout part)
  | none => return none

namespace Simple

def layout : Simple → Build NodeId
  | assign span nameSpan name value => do
    let target ← Build.place nameSpan (.reference name)
    let value ← value.layout
    Build.place span (.assign (some target) (some value))
  | input span nameSpan name => do
    let target ← Build.place nameSpan (.reference name)
    Build.place span (.input (some target))
  | expr value => value.layout

end Simple

namespace Stmt

mutual

def layout : Stmt → Build NodeId
  | block span body => Build.scope span (layoutAll body)
  | ifThen span condition thenBranch => do
    let condition ← condition.layout
    let thenBranch ← thenBranch.layout
    Build.place span (.ifElse (some condition) (some thenBranch) none)
  | ifElse span condition thenBranch elseBranch => do
    let condition ← condition.layout
    let thenBranch ← thenBranch.layout
    let elseBranch ← elseBranch.layout
    Build.place span (.ifElse (some condition) (some thenBranch) (some elseBranch))
  | whileLoop span condition bodySpan body => do
    let condition ← condition.layout
    let body ← Build.scope bodySpan (layoutAll body)
    Build.place span (.whileLoop (some condition) (some body))
  | forLoop span init condition step bodySpan body => do
    let init ← Build.optional Simple.layout init
    let condition ← condition.layout
    let step ← Build.optional Simple.layout step
    let body ← Build.scope bodySpan (layoutAll body)
    Build.place span (.forLoop init (some condition) step (some body))
  | print span value => do
    let value ← value.layout
    Build.place span (.print (some value))
  | declare span name initializer => do
    let initializer ← Build.optional Expr.layout initializer
    Build.place span (.declaration name initializer)
  | simple span statement => do
    let value ← statement.layout
    Build.place span (.expression (some value))

def layoutAll : List Stmt → Build (List NodeId)
  | [] => return []
  | s :: rest => do
    let first ← s.layout
    return first :: (← layoutAll rest)

end

end Stmt

namespace Program

def layout (p : Program) : Build Unit := do
  Build.setRoot (← Build.scope p.span (Stmt.layoutAll p.statements))

end Program

namespace Tree

def ofTokens (tokens : List Located) : Except Error Tree := do
  let program ← (parse tokens).mapError .malformed
  match program.layout.run {} with
  | (.ok _, t) => return t
  | (.error e, _) => throw (.construction e)

def ofSource (source : String) (file : Option String) : Except Error Tree := do
  ofTokens (← (scan source file).mapError .malformed)

end Tree

end TeachLang
