import TeachLang.Proofs.Built
import TeachLang.Proofs.Preorder

/-!
# What a walk visits

A walk from a node calls one handler, that of the kind, for the node and for each one that hangs
from it: a node before its children, and all of one child's subtree before the next child's. Where a
handler fails the walk ends, with the calls up to this one made and no other. So the nodes that the
walk from the root visits are those whose chain of parents ends at the root.
-/

namespace TeachLang.Tree

variable {t : Tree} {id k : NodeId} {n : Node} {ids : List NodeId} {σ : Type}

/-! ### The order -/

/-- A node comes first, and then what hangs from its children, child by child in the order of their
roles. -/
inductive Ordered (t : Tree) : NodeId → List NodeId → Prop
  | node {id : NodeId} {n : Node} {below : List (List NodeId)} (hn : t.get? id = some n)
      (hbelow : List.Forall₂ (Ordered t) n.form.children below) :
      Ordered t id (id :: below.flatten)

theorem forall₂_map_self {α β : Type} {P : α → β → Prop} {f : α → β} {as : List α}
    (h : ∀ a ∈ as, P a (f a)) : List.Forall₂ P as (as.map f) := by
  rw [List.forall₂_map_right_iff, List.forall₂_same]
  exact h

theorem forall₂_unique {α β : Type} {P : α → β → Prop} {as : List α} {bs bs' : List β}
    (hP : ∀ a ∈ as, ∀ b b', P a b → P a b' → b = b') (h : List.Forall₂ P as bs)
    (h' : List.Forall₂ P as bs') : bs = bs' := by
  induction h generalizing bs' with
  | nil => exact (List.forall₂_nil_left_iff.1 h').symm
  | cons hab _ ih =>
    obtain ⟨b', _, hab', hrest, rfl⟩ := List.forall₂_cons_left_iff.1 h'
    rw [hP _ List.mem_cons_self _ _ hab hab', ih (fun a ha => hP a (.tail _ ha)) hrest]

namespace Forest

variable (hf : Forest t)
include hf

theorem exists_ordered (h : t.contains id = true) :
    ∃ ids, t.preorder id = .ok ids ∧ t.Ordered id ids := by
  refine hf.descend (motive := fun bound id => ∃ ids, t.preorderWithin bound id = .ok ids ∧
    t.Ordered id ids) (fun bound id n hn hchildren => ?_) h
  choose! below hpreorder hordered using hchildren
  refine ⟨_, preorderWithin_succ hn hpreorder, ?_⟩
  rw [List.flatMap_def]
  exact .node hn (forall₂_map_self hordered)

theorem ordered_unique {ids' : List NodeId} (h : t.Ordered id ids) (h' : t.Ordered id ids') :
    ids = ids' := by
  have hid : t.contains id = true := by
    obtain ⟨hn, -⟩ := h
    exact (t.contains_iff id).2 ⟨_, hn⟩
  refine hf.descend (motive := fun _ id => ∀ ids ids', t.Ordered id ids → t.Ordered id ids' →
    ids = ids') (fun _ id n hn hchildren ids ids' h h' => ?_) hid ids ids' h h'
  obtain ⟨hm, hbelow⟩ := h
  obtain ⟨hm', hbelow'⟩ := h'
  cases hn.symm.trans hm
  cases hn.symm.trans hm'
  rw [forall₂_unique hchildren hbelow hbelow']

theorem ordered_reachable {root : NodeId} (hroot : t.root = some root) :
    t.Ordered root t.reachable := by
  obtain ⟨ids, hpreorder, hordered⟩ := hf.exists_ordered (hf.root_parentless root hroot).1
  rwa [reachable_of_preorder hroot hpreorder]

/-- The list of a node is the node and behind it the lists of its children. -/
theorem preorder_eq (hn : t.get? id = some n) :
    ∃ below : NodeId → List NodeId, (∀ c ∈ n.form.children, t.preorder c = .ok (below c)) ∧
      t.preorder id = .ok (id :: n.form.children.flatMap below) := by
  have hchildren : ∀ c ∈ n.form.children, ∃ ids, t.preorder c = .ok ids ∧ t.Ordered c ids :=
    fun c hc => hf.exists_ordered (contains_of_parent? (hf.parent?_of_mem hn hc))
  choose! below hpreorder hordered using hchildren
  obtain ⟨ids, hids, hord⟩ := hf.exists_ordered ((t.contains_iff id).2 ⟨n, hn⟩)
  refine ⟨below, hpreorder, ?_⟩
  rw [hids, List.flatMap_def, hf.ordered_unique hord (.node hn (forall₂_map_self hordered))]

end Forest

/-! ### The calls -/

variable {visit : NodeId → Node → Visit σ Unit}

theorem accept_eq (hn : t.get? id = some n) : t.accept id visit = visit id n := by
  rw [accept, t.find_eq_ok.2 hn]

theorem walk_eq_forM (h : t.preorder id = .ok ids) :
    t.walk id visit = ids.forM fun k => t.accept k visit := by
  rw [walk, h]

theorem forM_flatMap (f : NodeId → Visit σ Unit) (below : NodeId → List NodeId)
    (cs : List NodeId) : (cs.flatMap below).forM f = cs.forM fun c => (below c).forM f := by
  induction cs with
  | nil => rfl
  | cons c cs ih =>
    change forM (below c ++ cs.flatMap below) f = _
    rw [List.forM_append]
    exact congrArg (fun x => (below c).forM f >>= fun _ => x) ih

theorem forM_congr {f g : NodeId → Visit σ Unit} {ks : List NodeId} (h : ∀ k ∈ ks, f k = g k) :
    ks.forM f = ks.forM g := by
  induction ks with
  | nil => rfl
  | cons k ks ih =>
    change (f k >>= fun _ => ks.forM f) = (g k >>= fun _ => ks.forM g)
    rw [h k List.mem_cons_self, ih fun l hl => h l (.tail k hl)]

/-- The handler is called for the node, and then its children are walked in order. -/
theorem Forest.walk_eq (hf : Forest t) (hn : t.get? id = some n) :
    t.walk id visit = (do visit id n; n.form.children.forM fun c => t.walk c visit) := by
  obtain ⟨below, hbelow, hid⟩ := hf.preorder_eq hn
  rw [walk_eq_forM hid]
  change (t.accept id visit >>= fun _ => (n.form.children.flatMap below).forM _) = _
  rw [accept_eq hn, forM_flatMap, forM_congr fun c hc => (walk_eq_forM (hbelow c hc)).symm]

/-! ### Handlers -/

namespace Visitor

def noted (kind : Kind) (id : NodeId) (x : Visit σ Unit) : Visit (σ × List (Kind × NodeId)) Unit :=
  ExceptT.mk fun s => ((x.run s.1).1, (x.run s.1).2, s.2 ++ [(kind, id)])

variable (v : Visitor σ)

def noting : Visitor (σ × List (Kind × NodeId)) where
  arithmetic id op left right := noted .arithmetic id (v.arithmetic id op left right)
  logic id op left right := noted .logic id (v.logic id op left right)
  unary id op operand := noted .unary id (v.unary id op operand)
  scope id statements := noted .scope id (v.scope id statements)
  literal id value := noted .literal id (v.literal id value)
  print id expr := noted .print id (v.print id expr)
  assign id target value := noted .assign id (v.assign id target value)
  reference id name := noted .reference id (v.reference id name)
  declaration id name initializer := noted .declaration id (v.declaration id name initializer)
  expression id expr := noted .expression id (v.expression id expr)
  ifElse id condition thenBranch elseBranch :=
    noted .ifElse id (v.ifElse id condition thenBranch elseBranch)
  whileLoop id condition body := noted .whileLoop id (v.whileLoop id condition body)
  forLoop id init condition step body :=
    noted .forLoop id (v.forLoop id init condition step body)
  input id target := noted .input id (v.input id target)

theorem visit_noting (id : NodeId) (n : Node) :
    v.noting.visit id n = noted n.kind id (v.visit id n) := by
  obtain ⟨form, _, _⟩ := n
  cases form <;> rfl

theorem run_visit_noting {s s' : σ} {r : Except Error Unit} (h : (v.visit id n).run s = (r, s'))
    (calls : List (Kind × NodeId)) :
    (v.noting.visit id n).run (s, calls) = (r, s', calls ++ [(n.kind, id)]) := by
  rw [visit_noting]
  change (((v.visit id n).run s).1, ((v.visit id n).run s).2, _) = _
  rw [h]

def NeverFails : Prop := ∀ id n s, ∃ s', (v.visit id n).run s = (.ok (), s')

/-- A walk as a record of its calls: for each node in turn the handler of its kind, as long as the
handlers succeed. -/
inductive Visits (t : Tree) :
    List NodeId → σ → List (Kind × NodeId) → Except Error Unit → σ → Prop
  | done {s : σ} : Visits t [] s [] (.ok ()) s
  | failed {id : NodeId} {n : Node} {ids : List NodeId} {s s' : σ} {e : Error}
      (hn : t.get? id = some n) (hcall : (v.visit id n).run s = (.error e, s')) :
      Visits t (id :: ids) s [(n.kind, id)] (.error e) s'
  | called {id : NodeId} {n : Node} {ids : List NodeId} {s s₁ s' : σ}
      {calls : List (Kind × NodeId)} {r : Except Error Unit} (hn : t.get? id = some n)
      (hcall : (v.visit id n).run s = (.ok (), s₁)) (h : Visits t ids s₁ calls r s') :
      Visits t (id :: ids) s ((n.kind, id) :: calls) r s'

/-- Of the calls for these nodes, one after the other from a state on, the first `k` succeed and the
next one fails. -/
def FailsAfter (t : Tree) (e : Error) : Nat → List NodeId → σ → Prop
  | _, [], _ => False
  | 0, id :: _, s => ∃ n s', t.get? id = some n ∧ (v.visit id n).run s = (.error e, s')
  | k + 1, id :: ids, s => ∃ n s', t.get? id = some n ∧ (v.visit id n).run s = (.ok (), s') ∧
      FailsAfter t e k ids s'

section Calls

variable {v} {s s' : σ} {calls : List (Kind × NodeId)} {r : Except Error Unit}

theorem exists_visits (s : σ) (hids : ∀ k ∈ ids, t.contains k = true) :
    ∃ calls r s', v.Visits t ids s calls r s' := by
  induction ids generalizing s with
  | nil => exact ⟨[], .ok (), s, .done⟩
  | cons id ids ih =>
    obtain ⟨n, hn⟩ := (t.contains_iff id).1 (hids id List.mem_cons_self)
    rcases hcall : (v.visit id n).run s with ⟨e | _, s₁⟩
    · exact ⟨_, _, _, .failed hn hcall⟩
    · obtain ⟨calls, r, s', h⟩ := ih s₁ fun k hk => hids k (.tail id hk)
      exact ⟨_, r, s', .called hn hcall h⟩

namespace Visits

variable (h : v.Visits t ids s calls r s')
include h

theorem run : (ids.forM fun k => t.accept k v.visit).run s = (r, s') := by
  induction h with
  | done => rfl
  | failed hn hcall =>
    change (t.accept _ v.visit >>= fun _ => _).run _ = _
    rw [Visit.run_bind, accept_eq hn, hcall]
  | called hn hcall _ ih =>
    change (t.accept _ v.visit >>= fun _ => _).run _ = _
    rw [Visit.run_bind, accept_eq hn, hcall]
    exact ih

/-- To note the calls changes nothing about them, and notes those that are made. -/
theorem noting (before : List (Kind × NodeId)) :
    (ids.forM fun k => t.accept k v.noting.visit).run (s, before) = (r, s', before ++ calls) := by
  induction h generalizing before with
  | done => rw [List.append_nil]; rfl
  | failed hn hcall =>
    change (t.accept _ _ >>= fun _ => _).run _ = _
    rw [Visit.run_bind, accept_eq hn, run_visit_noting v hcall]
  | called hn hcall _ ih =>
    change (t.accept _ _ >>= fun _ => _).run _ = _
    rw [Visit.run_bind, accept_eq hn, run_visit_noting v hcall]
    exact (ih _).trans (by rw [List.append_assoc, List.singleton_append])

theorem kind_eq {call : Kind × NodeId} (hcall : call ∈ calls) :
    ∃ n, t.get? call.2 = some n ∧ call.1 = n.kind := by
  induction h with
  | done => cases hcall
  | failed hn _ =>
    cases List.mem_singleton.1 hcall
    exact ⟨_, hn, rfl⟩
  | called hn _ _ ih =>
    rcases List.mem_cons.1 hcall with rfl | hcall
    · exact ⟨_, hn, rfl⟩
    · exact ih hcall

theorem of_neverFails (hv : v.NeverFails) : r = .ok () ∧ calls.map Prod.snd = ids := by
  induction h with
  | done => exact ⟨rfl, rfl⟩
  | failed _ hcall =>
    obtain ⟨s', hs'⟩ := hv _ _ _
    cases hcall.symm.trans hs'
  | called _ _ _ ih => exact ⟨ih.1, by rw [List.map_cons, ih.2]⟩

theorem of_failsAfter {e : Error} {k : Nat} (hv : v.FailsAfter t e k ids s) :
    r = .error e ∧ calls.map Prod.snd = ids.take (k + 1) := by
  induction h generalizing k with
  | done => cases k <;> cases hv
  | failed hn hcall =>
    cases k with
    | zero =>
      obtain ⟨m, _, hm, hfails⟩ := hv
      cases hn.symm.trans hm
      cases hcall.symm.trans hfails
      exact ⟨rfl, rfl⟩
    | succ k =>
      obtain ⟨m, _, hm, hsucceeds, -⟩ := hv
      cases hn.symm.trans hm
      cases hcall.symm.trans hsucceeds
  | called hn hcall _ ih =>
    cases k with
    | zero =>
      obtain ⟨m, _, hm, hfails⟩ := hv
      cases hn.symm.trans hm
      cases hcall.symm.trans hfails
    | succ k =>
      obtain ⟨m, _, hm, hsucceeds, hrest⟩ := hv
      cases hn.symm.trans hm
      cases hcall.symm.trans hsucceeds
      obtain ⟨hr, hcalls⟩ := ih hrest
      exact ⟨hr, by rw [List.map_cons, hcalls, List.take_succ_cons]⟩

end Visits

end Calls

end Visitor

/-! ### What is reached -/

theorem Lists.contains (h : t.Lists id ids) (hid : t.contains id = true) :
    ∀ k ∈ ids, t.contains k = true :=
  fun k hk => ((h.mem_iff k).1 hk).contains_below hid

/-- A walk from a node that is not there makes no call. -/
theorem walk_foreign {visit : NodeId → Node → Visit σ Unit} (h : t.contains id = false) :
    t.walk id visit = throw (.construction (.foreignNode id)) := by
  have hpreorder : t.preorder id = .error (.foreignNode id) := by
    unfold preorder
    cases t.size with
    | zero => rfl
    | succ bound =>
      rw [preorderWithin, t.find_of_not_contains h]
      rfl
  rw [walk, hpreorder]

/-- From a node that is there, a walk calls the handlers for the nodes of one list: for those that
the node stands above, each once, and in the order of the tree. It makes the calls up to the first
one that fails, whose error it gives, and all of them if none fails. So a walk is a call for its
node and then the walks from the children. -/
theorem walk_exact (ht : Built t) :
    (∀ id, t.contains id = true → ∃ ids : List NodeId, ids.Nodup ∧
      (∀ k, k ∈ ids ↔ t.Above id k) ∧ t.Ordered id ids ∧
      ∀ {σ : Type} (v : Visitor σ) (s : σ), ∃ calls r s',
        (t.walk id v.visit).run s = (r, s') ∧
        (t.walk id v.noting.visit).run (s, []) = (r, s', calls) ∧ v.Visits t ids s calls r s' ∧
        (∀ call ∈ calls, ∃ n, t.get? call.2 = some n ∧ call.1 = n.kind) ∧
        (v.NeverFails → r = .ok () ∧ calls.map Prod.snd = ids) ∧
        (∀ e k, v.FailsAfter t e k ids s →
          r = .error e ∧ calls.map Prod.snd = ids.take (k + 1))) ∧
    (∀ id n, t.get? id = some n → ∀ {σ : Type} (v : Visitor σ), t.walk id v.visit = (do
      v.visit id n
      n.form.children.forM fun c => t.walk c v.visit)) ∧
    (∀ id, t.contains id = false → ∀ {σ : Type} (v : Visitor σ) (s : σ),
      (t.walk id v.noting.visit).run (s, []) = (.error (.construction (.foreignNode id)), s, [])) ∧
    (t.root = none → t.reachable.length = 0) ∧
    (∀ root, t.root = some root →
      t.reachable.length = (List.range t.size).countP fun k => t.top k = root) := by
  have hf := ht.forest
  refine ⟨fun id hid => ?_, fun _ _ hn _ _ => hf.walk_eq hn, fun id hid σ v s => ?_, fun h => ?_,
    fun _ => hf.length_reachable_eq⟩
  · obtain ⟨ids, hpreorder, hlists⟩ := hf.exists_preorder hid
    obtain ⟨ids', hpreorder', hordered⟩ := hf.exists_ordered hid
    cases hpreorder.symm.trans hpreorder'
    refine ⟨ids, hlists.nodup, hlists.mem_iff, hordered, fun v s => ?_⟩
    obtain ⟨calls, r, s', h⟩ := Visitor.exists_visits (v := v) s (hlists.contains hid)
    refine ⟨calls, r, s', ?_, ?_, h, fun call => h.kind_eq, h.of_neverFails,
      fun e k => h.of_failsAfter⟩
    · rw [walk_eq_forM hpreorder, h.run]
    · rw [walk_eq_forM hpreorder, h.noting, List.nil_append]
  · rw [walk_foreign hid]
    rfl
  · rw [reachable_of_rootless h, List.length_nil]

def Visitor.uniform (f : NodeId → Visit σ Unit) : Visitor σ where
  arithmetic id _ _ _ := f id
  logic id _ _ _ := f id
  unary id _ _ := f id
  scope id _ := f id
  literal id _ := f id
  print id _ := f id
  assign id _ _ := f id
  reference id _ := f id
  declaration id _ _ := f id
  expression id _ := f id
  ifElse id _ _ _ := f id
  whileLoop id _ _ := f id
  forLoop id _ _ _ _ := f id
  input id _ := f id

/-- The print statement stands in a block behind a node that hangs nowhere, and its sum got the left
operand last. Of four calls the third fails, at the left operand. -/
theorem walk_exact_of_sum :
    let t := [Operation.add (.literal 1), .add (.reference "x"),
      .add (.arithmetic .add none (some 1)), .add (.literal 7), .add (.print (some 2)),
      .attach 2 .left 0, .add (.scope [4]), .setRoot 5].foldl Operation.apply {}
    let e := Error.io "full"
    let v : Visitor Nat := .uniform fun _ => do
      match ← get with
      | 0 => throw e
      | k + 1 => set k
    Built t ∧ t.contains 4 = true ∧ t.contains 6 = false ∧ t.root = some 5 ∧
      v.FailsAfter t e 2 [4, 2, 0, 1] 2 ∧
      (∃ calls s', (t.walk 4 v.noting.visit).run (2, []) = (.error e, s', calls) ∧
        calls.map Prod.snd = [4, 2, 0]) ∧
      (t.walk 6 v.noting.visit).run (2, []) = (.error (.construction (.foreignNode 6)), 2, []) ∧
      t.reachable.length = 5 := by
  intro t e v
  have ht : Built t := Built.empty.operateAll _ (by simp)
  have hid : t.contains 4 = true := by decide
  have hforeign : t.contains 6 = false := by decide
  have hroot : t.root = some 5 := by decide
  have hfails : v.FailsAfter t e 2 [4, 2, 0, 1] 2 :=
    ⟨_, _, rfl, rfl, _, _, rfl, rfl, _, _, rfl, rfl⟩
  obtain ⟨hwalk, -, hnone, -, hcount⟩ := walk_exact ht
  obtain ⟨ids, -, -, hordered, hvisit⟩ := hwalk 4 hid
  obtain ⟨ids', hids, hordered'⟩ := ht.forest.exists_ordered hid
  cases (rfl : t.preorder 4 = .ok [4, 2, 0, 1]).symm.trans hids
  cases ht.forest.ordered_unique hordered hordered'
  obtain ⟨calls, r, s', -, hrun, -, -, -, hfailing⟩ := hvisit v 2
  obtain ⟨rfl, hcalls⟩ := hfailing e 2 hfails
  refine ⟨ht, hid, hforeign, hroot, hfails, ⟨calls, s', hrun, hcalls⟩, hnone 6 hforeign v 2, ?_⟩
  rw [hcount 5 hroot]
  rfl

end TeachLang.Tree
