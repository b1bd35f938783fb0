import TeachLang.Sink
import TeachLang.Text.Decimal
import TeachLang.Tree.Walk

/-!
# Trees as graphs

A tree is drawn in the DOT language: a record for each node, with its kind, what it says and its
position, followed by a record for each edge to a child. The graph numbers its nodes on first
mention, so the children of a node have numbers before they have records.
-/

namespace TeachLang

def Form.payload : Form → String
  | arithmetic op _ _ => op.symbol
  | logic op _ _ => op.symbol
  | unary op _ => op.symbol
  | scope _ => "scope"
  | literal v => Text.integerText v
  | print _ => "print"
  | assign _ _ => "="
  | reference name => name
  | declaration name _ => "var_decl " ++ name
  | expression _ => "expr"
  | ifElse _ _ _ => "if"
  | whileLoop _ _ => "while"
  | forLoop _ _ _ _ => "for"
  | input _ => "input ?"

/-- A drawing under way: the nodes mentioned so far, each at the place of its number. -/
structure Drawing where
  sink : Sink := {}
  mentioned : List NodeId := []

abbrev Draw := Tree.Visit Drawing

namespace Draw

def number (id : NodeId) : Draw Nat :=
  modifyGet fun d =>
    match d.mentioned.idxOf? id with
    | some k => (k, d)
    | none => (d.mentioned.length, { d with mentioned := d.mentioned ++ [id] })

def line (text : String) : Draw Unit := do
  let (result, sink) := (← get).sink.write (text ++ "\n")
  modify fun d => { d with sink := sink }
  result

def flush : Draw Unit := do
  (← get).sink.flush

def label (id : NodeId) (n : Node) : String :=
  n.kind.name ++ "\\n" ++ n.form.payload ++ "\\n" ++ id.text

def edges (k : Nat) : List NodeId → Draw Unit
  | [] => return
  | child :: rest => do
    let c ← number child
    line ("  n" ++ toString k ++ " -> n" ++ toString c)
    edges k rest

def node (id : NodeId) (n : Node) : Draw Unit := do
  let k ← number id
  line ("  n" ++ toString k ++ " [shape=box,label=\"" ++ label id n ++ "\"]")
  edges k n.form.children

def tree (t : Tree) : Draw Unit := do
  modify fun d => { d with mentioned := [] }
  line "digraph AST \x7b"
  match t.root with
  | some root => t.walk root node
  | none => pure ()
  line "\x7d"
  flush

end Draw

def Tree.drawing (t : Tree) : ByteArray := ((Draw.tree t).run {}).2.sink.written

end TeachLang
