import TeachLang.Tree.Build

/-!
# Copying and comparing subtrees

A copy keeps forms and spans, and its nodes are numbered in the order in which a walk meets them.
Comparison looks at forms alone, role by role: neither positions nor spans count.
-/

namespace TeachLang

namespace Build

def copyRoles (copy : NodeId → Build NodeId) (parent : NodeId) :
    List (Slot × Option NodeId) → Build Unit
  | [] => return
  | (slot, some child) :: rest => do
    attach parent slot (← copy child)
    copyRoles copy parent rest
  | (_, none) :: rest => copyRoles copy parent rest

def copyWithin (source : Tree) : Nat → NodeId → Build NodeId
  | 0, id => throw (.foreignNode id)
  | bound + 1, id => do
    let n ← source.find id
    let copy ← push { form := n.form.bare, span := n.span }
    copyRoles (copyWithin source bound) copy n.form.roles
    return copy

def copy (source : Tree) (id : NodeId) : Build NodeId := copyWithin source source.size id

end Build

namespace Tree

def copySubtree (t : Tree) (id : NodeId) : Except BuildError Tree :=
  match (Build.copy t id).run {} with
  | (.ok root, copy) => .ok { copy with root := some root }
  | (.error e, _) => .error e

/-- A copy of what hangs from the root. Nodes elsewhere are left behind. -/
def duplicate (t : Tree) : Except BuildError Tree :=
  match t.root with
  | some root => t.copySubtree root
  | none => .ok {}

/-- The same copy as a value that is always there. Were it to fail half-way, what was copied by then
would stand in it without a root. -/
def clone (t : Tree) : Tree :=
  match t.root with
  | some root =>
    match (Build.copy t root).run {} with
    | (.ok id, copy) => { copy with root := some id }
    | (.error _, copy) => copy
  | none => {}

def sameRoles (same : NodeId → NodeId → Option Bool) :
    List (Slot × Option NodeId) → List (Slot × Option NodeId) → Option Bool
  | [], [] => some true
  | (r, some a) :: as, (s, some b) :: bs =>
    if r = s then do
      if ← same a b then sameRoles same as bs else return false
    else some false
  | (r, none) :: as, (s, none) :: bs => if r = s then sameRoles same as bs else some false
  | _, _ => some false

def sameWithin (t u : Tree) : Nat → NodeId → NodeId → Option Bool
  | 0, _, _ => none
  | bound + 1, a, b => do
    let x ← t.get? a
    let y ← u.get? b
    if x.form.samePayload y.form then
      sameRoles (sameWithin t u bound) x.form.roles y.form.roles
    else return false

/-- Whether the subtrees at two nodes have equal forms all through. The question has no answer
about a node that is not there. -/
def same? (t : Tree) (a : NodeId) (u : Tree) (b : NodeId) : Option Bool := sameWithin t u t.size a b

def same (t u : Tree) : Bool :=
  match t.root, u.root with
  | some a, some b => t.same? a u b = some true
  | none, none => true
  | _, _ => false

end Tree

end TeachLang
