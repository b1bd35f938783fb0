import TeachLang.Tree

/-!
# Walks

A walk visits the nodes of a subtree, each node before its children and the children in the order of
their roles, until a visit fails.
-/

namespace TeachLang.Tree

def preorderWithin (t : Tree) : Nat → NodeId → Except BuildError (List NodeId)
  | 0, id => .error (.foreignNode id)
  | bound + 1, id => do
    let n ← t.find id
    let below ← n.form.children.mapM (t.preorderWithin bound)
    return id :: below.flatten

def preorder (t : Tree) (id : NodeId) : Except BuildError (List NodeId) :=
  t.preorderWithin t.size id

def reachable (t : Tree) : List NodeId :=
  match t.root with
  | some root => (t.preorder root).toOption.getD []
  | none => []

/-- What a visit may do: it fails or not, and what it has recorded until then stays. -/
abbrev Visit (σ : Type) := ExceptT Error (StateM σ)

variable {σ : Type}

theorem Visit.run_bind {α β : Type} (x : Visit σ α) (f : α → Visit σ β) (s : σ) :
    (x >>= f).run s =
      match x.run s with
      | (.ok a, s) => (f a).run s
      | (.error e, s) => (.error e, s) := by
  change (match x.run s with | (r, s) => (ExceptT.bindCont f r : StateM σ _) s) = _
  rcases x.run s with ⟨_ | _, _⟩ <;> rfl

structure Visitor (σ : Type) where
  arithmetic (id : NodeId) (op : ArithmeticOperator) (left right : Option NodeId) : Visit σ Unit
  logic (id : NodeId) (op : LogicOperator) (left right : Option NodeId) : Visit σ Unit
  unary (id : NodeId) (op : UnaryOperator) (operand : Option NodeId) : Visit σ Unit
  scope (id : NodeId) (statements : List NodeId) : Visit σ Unit
  literal (id : NodeId) (value : Int64) : Visit σ Unit
  print (id : NodeId) (expr : Option NodeId) : Visit σ Unit
  assign (id : NodeId) (target value : Option NodeId) : Visit σ Unit
  reference (id : NodeId) (name : String) : Visit σ Unit
  declaration (id : NodeId) (name : String) (initializer : Option NodeId) : Visit σ Unit
  expression (id : NodeId) (expr : Option NodeId) : Visit σ Unit
  ifElse (id : NodeId) (condition thenBranch elseBranch : Option NodeId) : Visit σ Unit
  whileLoop (id : NodeId) (condition body : Option NodeId) : Visit σ Unit
  forLoop (id : NodeId) (init condition step body : Option NodeId) : Visit σ Unit
  input (id : NodeId) (target : Option NodeId) : Visit σ Unit

def Visitor.visit (v : Visitor σ) (id : NodeId) (n : Node) : Visit σ Unit :=
  match n.form with
  | .arithmetic op left right => v.arithmetic id op left right
  | .logic op left right => v.logic id op left right
  | .unary op operand => v.unary id op operand
  | .scope statements => v.scope id statements
  | .literal value => v.literal id value
  | .print expr => v.print id expr
  | .assign target value => v.assign id target value
  | .reference name => v.reference id name
  | .declaration name initializer => v.declaration id name initializer
  | .expression expr => v.expression id expr
  | .ifElse condition thenBranch elseBranch => v.ifElse id condition thenBranch elseBranch
  | .whileLoop condition body => v.whileLoop id condition body
  | .forLoop init condition step body => v.forLoop id init condition step body
  | .input target => v.input id target

def accept (t : Tree) (id : NodeId) (visit : NodeId → Node → Visit σ Unit) : Visit σ Unit :=
  match t.find id with
  | .ok node => visit id node
  | .error e => throw (.construction e)

def walk (t : Tree) (id : NodeId) (visit : NodeId → Node → Visit σ Unit) : Visit σ Unit :=
  match t.preorder id with
  | .ok ids => ids.forM fun k => t.accept k visit
  | .error e => throw (.construction e)

end TeachLang.Tree
