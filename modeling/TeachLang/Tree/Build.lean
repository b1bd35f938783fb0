import TeachLang.Tree

/-!
# Building trees

Trees are built from the leaves up: first the children, then the node that owns them. A step that
fails leaves in the tree what it has done before; attaching by itself does all or nothing.
-/

namespace TeachLang

/-- A change of a tree, which may fail half-way. -/
abbrev Build := ExceptT BuildError (StateM Tree)

namespace Build

def node (id : NodeId) : Build Node := do
  match (← get).get? id with
  | some n => return n
  | none => throw (.foreignNode id)

def attach (parent : NodeId) (slot : Slot) (child : NodeId) : Build Unit := do
  match (← get).obstacle? parent slot child with
  | some e => throw e
  | none => modify (·.link parent slot child)

def attachAll (parent : NodeId) : List (Slot × Option NodeId) → Build Unit
  | [] => return
  | (slot, some child) :: rest => do
    attach parent slot child
    attachAll parent rest
  | (_, none) :: rest => attachAll parent rest

def push (node : Node) : Build NodeId := modifyGet fun t => (t.size, t.add node)

/-- A new node of the given form. It enters the tree before its children are attached to it, so it
stays there with the children before the first that cannot be attached. -/
def add (form : Form) : Build NodeId := do
  let id ← push { form := form.bare }
  attachAll id form.roles
  return id

def setSpan (id : NodeId) (span : Span) : Build Unit := do
  let _ ← node id
  modify (·.setSpan id span)

def setRoot (id : NodeId) : Build Unit := do
  let n ← node id
  if n.parent.isSome then throw (.alreadyAttached n.kind)
  modify fun t => { t with root := some id }

variable {α β : Type} (t : Tree)

theorem run_bind (x : Build α) (f : α → Build β) :
    (x >>= f).run t =
      match x.run t with
      | (.ok a, u) => (f a).run u
      | (.error e, u) => (.error e, u) := by
  change (match x.run t with | (r, u) => (ExceptT.bindCont f r : StateM Tree _) u) = _
  rcases x.run t with ⟨_ | _, _⟩ <;> rfl

/-- A sequence succeeds when both parts do. -/
theorem run_bind_eq_ok {x : Build α} {f : α → Build β} {t u : Tree} {b : β} :
    (x >>= f).run t = (.ok b, u) ↔
      ∃ a v, x.run t = (.ok a, v) ∧ (f a).run v = (.ok b, u) := by
  rw [run_bind]
  rcases x.run t with ⟨e | a, v⟩
  · constructor
    · intro h
      cases h
    · rintro ⟨_, _, h, _⟩
      cases h
  · constructor
    · exact fun h => ⟨a, v, rfl, h⟩
    · rintro ⟨_, _, h, hf⟩
      cases h
      exact hf

@[simp] theorem run_pure (a : α) : (pure a : Build α).run t = (.ok a, t) := rfl

@[simp] theorem run_throw (e : BuildError) : (throw e : Build α).run t = (.error e, t) := rfl

@[simp] theorem run_get : (get : Build Tree).run t = (.ok t, t) := rfl

@[simp] theorem run_modify (f : Tree → Tree) :
    (modify f : Build Unit).run t = (.ok (), f t) := rfl

theorem run_pure_eq_ok {a b : α} {t u : Tree} :
    (pure a : Build α).run t = (.ok b, u) ↔ a = b ∧ t = u := by
  constructor
  · intro h
    cases h
    exact ⟨rfl, rfl⟩
  · rintro ⟨rfl, rfl⟩
    rfl

@[simp] theorem run_push (n : Node) : (push n).run t = (.ok t.size, t.add n) := rfl

@[simp] theorem run_liftM (x : Except BuildError α) : (liftM x : Build α).run t = (x, t) := rfl

theorem run_liftM_eq_ok {x : Except BuildError α} {b : α} {t u : Tree} :
    (liftM x : Build α).run t = (.ok b, u) ↔ x = .ok b ∧ t = u := by
  constructor
  · intro h
    cases h
    exact ⟨rfl, rfl⟩
  · rintro ⟨rfl, rfl⟩
    rfl

theorem run_push_eq_ok {n : Node} {id : NodeId} {t u : Tree} :
    (push n).run t = (.ok id, u) ↔ id = t.size ∧ u = t.add n := by
  constructor
  · intro h
    cases h
    exact ⟨rfl, rfl⟩
  · rintro ⟨rfl, rfl⟩
    rfl

theorem run_node (id : NodeId) : (node id).run t = (t.find id, t) := by
  simp only [node, run_bind, run_get, Tree.find]
  cases t.get? id <;> rfl

theorem run_attach (parent : NodeId) (slot : Slot) (child : NodeId) :
    (attach parent slot child).run t =
      match t.obstacle? parent slot child with
      | some e => (.error e, t)
      | none => (.ok (), t.link parent slot child) := by
  simp only [attach, run_bind, run_get]
  cases t.obstacle? parent slot child <;> rfl

theorem run_attach_eq_ok {parent child : NodeId} {slot : Slot} {t u : Tree} :
    (attach parent slot child).run t = (.ok (), u) ↔
      t.obstacle? parent slot child = none ∧ u = t.link parent slot child := by
  rw [run_attach]
  cases t.obstacle? parent slot child with
  | some e =>
    constructor
    · intro h
      cases h
    · rintro ⟨h, _⟩
      cases h
  | none =>
    constructor
    · intro h
      cases h
      exact ⟨rfl, rfl⟩
    · rintro ⟨_, rfl⟩
      rfl

theorem run_setSpan (id : NodeId) (span : Span) :
    (setSpan id span).run t =
      match t.find id with
      | .ok _ => (.ok (), t.setSpan id span)
      | .error e => (.error e, t) := by
  simp only [setSpan, run_bind, run_node]
  cases t.find id <;> rfl

theorem run_setRoot (id : NodeId) :
    (setRoot id).run t =
      match t.find id with
      | .ok n =>
        if n.parent.isSome then (.error (.alreadyAttached n.kind), t)
        else (.ok (), { t with root := some id })
      | .error e => (.error e, t) := by
  simp only [setRoot, run_bind, run_node]
  cases t.find id with
  | error e => rfl
  | ok n => cases h : n.parent <;> simp [h]

theorem run_add (f : Form) :
    (add f).run t =
      match (attachAll t.size f.roles).run (t.add { form := f.bare }) with
      | (.ok _, u) => (.ok t.size, u)
      | (.error e, u) => (.error e, u) := by
  simp only [add, run_bind, run_push, run_pure]
  rcases (attachAll t.size f.roles).run (t.add { form := f.bare }) with ⟨_ | _, _⟩ <;> rfl

end Build

end TeachLang
