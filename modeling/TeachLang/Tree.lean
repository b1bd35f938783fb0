import TeachLang.Error

/-!
# Trees

A tree keeps its nodes in an array, and nodes refer to each other by position: a parent to its
children through the roles of its form, a child back to its parent. A node may also stand alone.
Nodes are added and attached, never moved or removed.

An array can hold links that no tree has, so a recursion along links carries a bound on its depth.
In a tree no path is longer than the number of nodes, and the functions without a bound start from
that.
-/

namespace TeachLang

structure Node where
  form : Form
  parent : Option NodeId := none
  span : Span := {}
  deriving DecidableEq

def Node.kind (n : Node) : Kind := n.form.kind

structure Tree where
  nodes : Array Node := #[]
  root : Option NodeId := none
  deriving DecidableEq

namespace Tree

abbrev size (t : Tree) : Nat := t.nodes.size

def contains (t : Tree) (id : NodeId) : Bool := id < t.size

def get? (t : Tree) (id : NodeId) : Option Node := t.nodes[id]?

def find (t : Tree) (id : NodeId) : Except BuildError Node :=
  match t.get? id with
  | some node => .ok node
  | none => .error (.foreignNode id)

def parent? (t : Tree) (id : NodeId) : Option NodeId := (t.get? id).bind Node.parent

def topWithin (t : Tree) : Nat → NodeId → NodeId
  | 0, id => id
  | bound + 1, id =>
    match t.parent? id with
    | some up => t.topWithin bound up
    | none => id

def top (t : Tree) (id : NodeId) : NodeId := t.topWithin t.size id

/-- What keeps `child` from being attached to `parent` in a role, the first that applies. As the
child has no parent, a cycle would arise only if it were the topmost ancestor of its new parent.
-/
def obstacle? (t : Tree) (parent : NodeId) (slot : Slot) (child : NodeId) : Option BuildError :=
  match t.get? parent, t.get? child with
  | none, _ => some (.foreignNode parent)
  | some _, none => some (.foreignNode child)
  | some p, some c =>
    if c.parent.isSome ∨ t.root = some child then some (.alreadyAttached c.kind)
    else if t.top parent = child then some (.cyclicAttachment c.kind)
    else match p.form.slot? slot with
      | none => some (.noSuchSlot p.kind slot)
      | some (some _) => some (.slotAlreadySet p.kind slot)
      | some none => none

def setForm (t : Tree) (id : NodeId) (f : Form → Form) : Tree :=
  { t with nodes := t.nodes.modify id fun n => { n with form := f n.form } }

def setParent (t : Tree) (id parent : NodeId) : Tree :=
  { t with nodes := t.nodes.modify id fun n => { n with parent := some parent } }

def setSpan (t : Tree) (id : NodeId) (span : Span) : Tree :=
  { t with nodes := t.nodes.modify id fun n => { n with span := span } }

def link (t : Tree) (parent : NodeId) (slot : Slot) (child : NodeId) : Tree :=
  (t.setForm parent (·.fill slot child)).setParent child parent

def add (t : Tree) (node : Node) : Tree := { t with nodes := t.nodes.push node }

variable (t : Tree)

theorem contains_iff (id : NodeId) : t.contains id = true ↔ ∃ n, t.get? id = some n := by
  simp only [contains, decide_eq_true_eq, get?]
  exact ⟨fun h => ⟨_, Array.getElem?_eq_getElem h⟩,
    fun ⟨_, h⟩ => (Array.getElem?_eq_some_iff.1 h).1⟩

theorem find_eq_ok {id : NodeId} {n : Node} : t.find id = .ok n ↔ t.get? id = some n := by
  unfold find
  cases t.get? id <;> simp

theorem find_of_not_contains {id : NodeId} (h : t.contains id = false) :
    t.find id = .error (.foreignNode id) := by
  unfold find
  cases hn : t.get? id with
  | none => rfl
  | some n =>
    rw [(t.contains_iff id).2 ⟨n, hn⟩] at h
    cases h

@[simp] theorem size_add (n : Node) : (t.add n).size = t.size + 1 := by simp [add, size]

@[simp] theorem size_link (parent : NodeId) (slot : Slot) (child : NodeId) :
    (t.link parent slot child).size = t.size := by
  simp [link, setForm, setParent, size]

theorem get?_add (n : Node) (id : NodeId) :
    (t.add n).get? id = if id = t.size then some n else t.get? id := by
  simp [add, get?, Array.getElem?_push]

theorem get?_setForm (id : NodeId) (f : Form → Form) (k : NodeId) :
    (t.setForm id f).get? k =
      (t.get? k).map fun n => if id = k then { n with form := f n.form } else n := by
  simp only [setForm, get?, Array.getElem?_modify]
  split <;> simp_all

theorem get?_setParent (id parent k : NodeId) :
    (t.setParent id parent).get? k =
      (t.get? k).map fun n => if id = k then { n with parent := some parent } else n := by
  simp only [setParent, get?, Array.getElem?_modify]
  split <;> simp_all

theorem get?_setSpan (id : NodeId) (span : Span) (k : NodeId) :
    (t.setSpan id span).get? k =
      (t.get? k).map fun n => if id = k then { n with span := span } else n := by
  simp only [setSpan, get?, Array.getElem?_modify]
  split <;> simp_all

@[simp] theorem size_setSpan (id : NodeId) (span : Span) : (t.setSpan id span).size = t.size := by
  simp [setSpan, size]

end Tree

end TeachLang
