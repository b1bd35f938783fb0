import TeachLang.Machine
import TeachLang.Tree

/-!
# Evaluation

One function evaluates each form of node. `run` evaluates a child, and `value` does so and gives
what it left in the register; `exec` ties the knot with a bound on the depth, of which a loop
takes one for each round. A node that lacks what it needs is a fault, found only when the node is
evaluated.
-/

namespace TeachLang

namespace Eval

def node (t : Tree) (id : NodeId) : Eval Node :=
  match t.find id with
  | .ok n => return n
  | .error e => throw (.construction e)

variable (value : NodeId → Eval Int64) (run : NodeId → Eval Unit)

def unary (span : Span) (op : UnaryOperator) (operand : Option NodeId) : Eval Unit := do
  let operand ← orRaise operand (.missingOperand .unary) span
  setRegister (op.apply (← value operand))

/-- Both operands must be there before the first is evaluated. -/
def arithmetic (span : Span) (op : ArithmeticOperator) (left right : Option NodeId) :
    Eval Unit := do
  let left ← orRaise left (.missingOperand .arithmetic) span
  let right ← orRaise right (.missingOperand .arithmetic) span
  let a ← value left
  let b ← value right
  setRegister (← orRaise (op.apply a b) .divisionByZero span)

def logic (span : Span) (op : LogicOperator) (left right : Option NodeId) : Eval Unit := do
  let left ← orRaise left (.missingOperand .logic) span
  let a ← value left
  match op.settledBy a with
  | some v => setRegister v
  | none =>
    let right ← orRaise right (.missingOperand .logic) span
    let b ← value right
    setRegister (op.apply a b)

def print (t : Tree) (span : Span) (expr : Option NodeId) : Eval Unit := do
  let expr ← orRaise expr (.missingExpression .print) span
  let n ← node t expr
  if n.kind.evaluable then
    let v ← value expr
    write (Text.integerText v ++ "\n")
  else raise (.invalidExpression n.kind) n.span

def targetName (t : Tree) (span : Span) (target : Option NodeId) (fault : Option Kind → Fault) :
    Eval String := do
  let target ← orRaise target (fault none) span
  let n ← node t target
  match n.form with
  | .reference name => return name
  | _ => raise (fault (some n.kind)) n.span

def assignment (t : Tree) (span : Span) (target rhs : Option NodeId) : Eval Unit := do
  let name ← targetName t span target .invalidAssignTarget
  let rhs ← orRaise rhs (.missingOperand .assign) span
  assign name (← value rhs)

def declaration (span : Span) (name : String) (initializer : Option NodeId) : Eval Unit := do
  let v ← match initializer with
    | some e => value e
    | none => pure 0
  setRegister v
  declare name v span

/-- The register keeps the value it had. -/
def input (t : Tree) (span : Span) (target : Option NodeId) : Eval Unit := do
  let name ← targetName t span target .invalidInputTarget
  let v ← orRaise (← takeInteger) .inputFormat span
  assign name v

/-- A scope without a parent runs in the scope that is already open. -/
def scope (parent : Option NodeId) (statements : List NodeId) : Eval Unit :=
  if parent.isNone then statements.forM run else inScope (statements.forM run)

def checkCondition (t : Tree) (condition : NodeId) : Eval Unit := do
  let n ← node t condition
  if !n.kind.evaluable then raise (.invalidCondition n.kind) n.span

def checkBody (t : Tree) (body : NodeId) : Eval Unit := do
  let n ← node t body
  if n.kind ≠ .scope then raise (.invalidBody n.kind) n.span

def ifElse (t : Tree) (span : Span) (condition thenBranch elseBranch : Option NodeId) :
    Eval Unit := do
  let condition ← orRaise condition (.missingCondition .ifElse) span
  checkCondition t condition
  if (← value condition) ≠ 0 then
    run (← orRaise thenBranch .missingThenBranch span)
  else match elseBranch with
    | some e => run e
    | none => return

def loop (condition : Eval Int64) (round : Eval Unit) : Nat → Eval Unit
  | 0 => unbounded
  | bound + 1 => do
    if (← condition) ≠ 0 then
      round
      loop condition round bound

def loopParts (t : Tree) (span : Span) (kind : Kind) (condition body : Option NodeId) :
    Eval (NodeId × NodeId) := do
  let condition ← orRaise condition (.missingCondition kind) span
  let body ← orRaise body (.missingBody kind) span
  checkCondition t condition
  checkBody t body
  return (condition, body)

def whileLoop (t : Tree) (bound : Nat) (span : Span) (condition body : Option NodeId) :
    Eval Unit := do
  let (condition, body) ← loopParts t span .whileLoop condition body
  loop (value condition) (run body) bound

def optional (id : Option NodeId) : Eval Unit :=
  match id with
  | some id => run id
  | none => return

def forLoop (t : Tree) (bound : Nat) (span : Span) (init condition step body : Option NodeId) :
    Eval Unit := do
  let (condition, body) ← loopParts t span .forLoop condition body
  optional run init
  loop (value condition) (do run body; optional run step) bound

end Eval

namespace Tree

open Eval

def step (t : Tree) (bound : Nat) (run : NodeId → Eval Unit) (n : Node) : Eval Unit :=
  let value (id : NodeId) : Eval Int64 := do run id; register
  match n.form with
  | .arithmetic op left right => arithmetic value n.span op left right
  | .logic op left right => logic value n.span op left right
  | .unary op operand => unary value n.span op operand
  | .scope statements => scope run n.parent statements
  | .literal v => setRegister v
  | .print expr => print value t n.span expr
  | .assign target rhs => assignment value t n.span target rhs
  | .reference name => do setRegister (← lookup name n.span)
  | .declaration name initializer => declaration value n.span name initializer
  | .expression expr => do run (← orRaise expr (.missingExpression .expression) n.span)
  | .ifElse condition thenBranch elseBranch =>
    ifElse value run t n.span condition thenBranch elseBranch
  | .whileLoop condition body => whileLoop value run t bound n.span condition body
  | .forLoop init condition step body => forLoop value run t bound n.span init condition step body
  | .input target => input t n.span target

def exec (t : Tree) : Nat → NodeId → Eval Unit
  | 0, _ => unbounded
  | bound + 1, id => do
    let n ← node t id
    t.step bound (t.exec bound) n

def evaluate (t : Tree) (bound : Nat) (id : NodeId) : Eval Int64 := do
  t.exec bound id
  register

/-- Evaluates the root, if there is one, and flushes the sink whatever came of it. The error of a
flush hides that of the evaluation. -/
def run (t : Tree) (bound : Nat) : Eval Unit :=
  match t.root with
  | none => return
  | some root => do
    let result ← outcome (t.exec bound root)
    flush
    match result with
    | .ok _ => return
    | .error e => throw e

end Tree

end TeachLang
