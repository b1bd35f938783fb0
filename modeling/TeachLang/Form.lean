import TeachLang.Kind
import TeachLang.Operator

/-!
# Forms of nodes

A form is what a node says by itself: its kind, its operator, value or name, and which node stands
in each of its roles. `Form.roles` is the one place that fixes the order of the children.
-/

namespace TeachLang

abbrev NodeId := Nat

def NodeId.text (id : NodeId) : String := "#" ++ toString id

inductive Form where
  | arithmetic (op : ArithmeticOperator) (left right : Option NodeId)
  | logic (op : LogicOperator) (left right : Option NodeId)
  | unary (op : UnaryOperator) (operand : Option NodeId)
  | scope (statements : List NodeId)
  | literal (value : Int64)
  | print (expr : Option NodeId)
  | assign (target value : Option NodeId)
  | reference (name : String)
  | declaration (name : String) (initializer : Option NodeId)
  | expression (expr : Option NodeId)
  | ifElse (condition thenBranch elseBranch : Option NodeId)
  | whileLoop (condition body : Option NodeId)
  | forLoop (init condition step body : Option NodeId)
  | input (target : Option NodeId)
  deriving DecidableEq

namespace Form

def kind : Form → Kind
  | arithmetic .. => .arithmetic
  | logic .. => .logic
  | unary .. => .unary
  | scope _ => .scope
  | literal _ => .literal
  | print _ => .print
  | assign .. => .assign
  | reference _ => .reference
  | declaration .. => .declaration
  | expression _ => .expression
  | ifElse .. => .ifElse
  | whileLoop .. => .whileLoop
  | forLoop .. => .forLoop
  | input _ => .input

def roles : Form → List (Slot × Option NodeId)
  | arithmetic _ l r => [(.left, l), (.right, r)]
  | logic _ l r => [(.left, l), (.right, r)]
  | unary _ e => [(.operand, e)]
  | scope ss => ss.map fun s => (.statement, some s)
  | literal _ => []
  | print e => [(.expr, e)]
  | assign t v => [(.assignTarget, t), (.assignedValue, v)]
  | reference _ => []
  | declaration _ e => [(.initializer, e)]
  | expression e => [(.expr, e)]
  | ifElse c t e => [(.condition, c), (.thenBranch, t), (.elseBranch, e)]
  | whileLoop c b => [(.condition, c), (.body, b)]
  | forLoop i c s b => [(.init, i), (.condition, c), (.step, s), (.body, b)]
  | input t => [(.inputTarget, t)]

def children (f : Form) : List NodeId := f.roles.filterMap Prod.snd

def bare : Form → Form
  | arithmetic op _ _ => arithmetic op none none
  | logic op _ _ => logic op none none
  | unary op _ => unary op none
  | scope _ => scope []
  | literal v => literal v
  | print _ => print none
  | assign _ _ => assign none none
  | reference x => reference x
  | declaration x _ => declaration x none
  | expression _ => expression none
  | ifElse _ _ _ => ifElse none none none
  | whileLoop _ _ => whileLoop none none
  | forLoop _ _ _ _ => forLoop none none none none
  | input _ => input none

def samePayload (f g : Form) : Bool := f.bare = g.bare

/-- What stands in a role, if the form has that role. A scope has an empty place for a further
statement at all times. -/
def slot? : Form → Slot → Option (Option NodeId)
  | arithmetic _ l _, .left => some l
  | arithmetic _ _ r, .right => some r
  | logic _ l _, .left => some l
  | logic _ _ r, .right => some r
  | unary _ e, .operand => some e
  | scope _, .statement => some none
  | print e, .expr => some e
  | assign t _, .assignTarget => some t
  | assign _ v, .assignedValue => some v
  | declaration _ e, .initializer => some e
  | expression e, .expr => some e
  | ifElse c _ _, .condition => some c
  | ifElse _ t _, .thenBranch => some t
  | ifElse _ _ e, .elseBranch => some e
  | whileLoop c _, .condition => some c
  | whileLoop _ b, .body => some b
  | forLoop i _ _ _, .init => some i
  | forLoop _ c _ _, .condition => some c
  | forLoop _ _ s _, .step => some s
  | forLoop _ _ _ b, .body => some b
  | input t, .inputTarget => some t
  | _, _ => none

/-- Puts `child` in a role that the form has; a statement goes behind the others. -/
def fill : Form → Slot → NodeId → Form
  | arithmetic op _ r, .left, child => arithmetic op (some child) r
  | arithmetic op l _, .right, child => arithmetic op l (some child)
  | logic op _ r, .left, child => logic op (some child) r
  | logic op l _, .right, child => logic op l (some child)
  | unary op _, .operand, child => unary op (some child)
  | scope ss, .statement, child => scope (ss ++ [child])
  | print _, .expr, child => print (some child)
  | assign _ v, .assignTarget, child => assign (some child) v
  | assign t _, .assignedValue, child => assign t (some child)
  | declaration x _, .initializer, child => declaration x (some child)
  | expression _, .expr, child => expression (some child)
  | ifElse _ t e, .condition, child => ifElse (some child) t e
  | ifElse c _ e, .thenBranch, child => ifElse c (some child) e
  | ifElse c t _, .elseBranch, child => ifElse c t (some child)
  | whileLoop _ b, .condition, child => whileLoop (some child) b
  | whileLoop c _, .body, child => whileLoop c (some child)
  | forLoop _ c s b, .init, child => forLoop (some child) c s b
  | forLoop i _ s b, .condition, child => forLoop i (some child) s b
  | forLoop i c _ b, .step, child => forLoop i c (some child) b
  | forLoop i c s _, .body, child => forLoop i c s (some child)
  | input _, .inputTarget, child => input (some child)
  | f, _, _ => f

@[simp] theorem kind_bare (f : Form) : f.bare.kind = f.kind := by cases f <;> rfl

@[simp] theorem bare_bare (f : Form) : f.bare.bare = f.bare := by cases f <;> rfl

@[simp] theorem kind_fill (f : Form) (s : Slot) (child : NodeId) :
    (f.fill s child).kind = f.kind := by
  cases f <;> cases s <;> rfl

@[simp] theorem bare_fill (f : Form) (s : Slot) (child : NodeId) :
    (f.fill s child).bare = f.bare := by
  cases f <;> cases s <;> rfl

end Form

end TeachLang
